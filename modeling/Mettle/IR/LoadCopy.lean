import Mathlib.Algebra.GroupWithZero.Nat
import Mettle.IR.FlowCleanup
import Mettle.IR.Words

/-!
# Mettle — elimination of copies of loaded values

The pass of `ir/ir_optimize.c` that turns `t = load p; x = t; … x …` into
`t = load p; … t …`. The copy becomes a nop, and the uses of `x` up to its next definition
are renamed to `t`. Not every use is: call arguments, the address of a store and the operands
of the instruction that redefines `x` keep their name, and nobody asks whether `t` is still
what was loaded, or who else reads `x`.

Where no use is missed, the two functions go in step and differ in `x` only, until it is
redefined. One copy is followed through its stretch (`copy_step`); a copy behind it is still
there afterwards, and still a safe one (`CopySafe.rename`), so this holds for the whole pass.
-/

namespace Mettle.IR

open List Option

-- ---
-- The pass
-- ---

def IRInstruction.isControl (instruction : IRInstruction) : Bool :=
  instruction.op == .label || instruction.op == .jump || instruction.op == .branchZero ||
    instruction.op == .branchEq

def redefines (sym : String) (instruction : IRInstruction) : Bool :=
  irInstructionWritesSymbol instruction && instruction.dest == .symbol sym

def copyWindowAt (instructions : List IRInstruction) (i : Nat) : Option (String × String) :=
  match instructions[i]?, instructions[i + 1]? with
  | some load, some assign =>
    match load.op, load.dest, assign.op, assign.dest with
    | .load, .temp temp, .assign, .symbol sym =>
      if assign.lhs = .temp temp then some (temp, sym) else none
    | _, _, _, _ => none
  | _, _ => none

def copyEnd (instructions : List IRInstruction) (sym : String) (start : Nat) : Nat :=
  start + (instructions.drop start).findIdx fun c => c.isControl || redefines sym c

def copyUses (sym : String) (instruction : IRInstruction) : Nat :=
  (if instruction.lhs = .symbol sym ∨ instruction.rhs = .symbol sym ∨
    instruction.dest = .symbol sym then 1 else 0) + instruction.arguments.count (.symbol sym)

def copyUseCount (instructions : List IRInstruction) (sym : String) (start : Nat) : Nat :=
  (((instructions.drop start).take (copyEnd instructions sym start - start)).map (copyUses sym)).sum

def renameOperand (sym temp : String) (operand : IROperand) : IROperand :=
  if operand = .symbol sym then .temp temp else operand

def renameUses (sym temp : String) (instruction : IRInstruction) : IRInstruction :=
  { instruction with
    lhs := renameOperand sym temp instruction.lhs
    rhs := renameOperand sym temp instruction.rhs
    dest :=
      if instruction.op = .store then instruction.dest
      else renameOperand sym temp instruction.dest }

/-- The copy at `i` is one that the pass removes. -/
def removesCopyAt (instructions : List IRInstruction) (i : Nat) : Option (String × String) :=
  (copyWindowAt instructions i).filter fun (_, sym) =>
    !(instructions[copyEnd instructions sym (i + 2)]?.any (·.isControl)) &&
      decide (1 ≤ copyUseCount instructions sym (i + 2)) &&
      decide (copyUseCount instructions sym (i + 2) ≤ 6)

def eliminateLoadSymbolCopyAt (instructions : List IRInstruction) (i : Nat) :
    List IRInstruction :=
  match removesCopyAt instructions i with
  | none => instructions
  | some (temp, sym) =>
    instructions.mapIdx fun q c =>
      if q = i + 1 then makeNop c
      else if i + 2 ≤ q ∧ q < copyEnd instructions sym (i + 2) then renameUses sym temp c
      else c

/-- Loads into the symbol that gets the copy. -/
def irEliminateLoadSymbolCopyPass (function : IRFunction) : IRFunction :=
  { function with
    instructions := rewriteEach eliminateLoadSymbolCopyAt function.instructions }

-- ---
-- A copy and its stretch
-- ---

/-- What the pass has found: the load, the copy, and the end of the stretch behind them. -/
structure CopyAt (instructions : List IRInstruction) (i : Nat) (temp sym : String)
    (stop : Nat) : Prop where
  load : ∃ c, instructions[i]? = some c ∧ c.op = .load ∧ c.dest = .temp temp
  copy : ∃ c, instructions[i + 1]? = some c ∧ c.op = .assign ∧ c.dest = .symbol sym ∧
    c.lhs = .temp temp
  behind : i + 2 ≤ stop
  stretch : ∀ q c, instructions[q]? = some c → i + 2 ≤ q → q < stop →
    c.isControl = false ∧ redefines sym c = false
  redefined : ∀ c, instructions[stop]? = some c → redefines sym c = true
  within : stop ≤ max instructions.length (i + 2)

variable {code : List IRInstruction}

variable {i : Nat} {temp sym : String}

theorem copyWindowAt_spec (h : copyWindowAt code i = some (temp, sym)) :
    (∃ c, code[i]? = some c ∧ c.op = .load ∧ c.dest = .temp temp) ∧
      ∃ c, code[i + 1]? = some c ∧ c.op = .assign ∧ c.dest = .symbol sym ∧ c.lhs = .temp temp := by
  unfold copyWindowAt at h
  split at h
  · rename_i load assign hLoad hAssign
    split at h
    · rename_i temp' sym' hOp hDest hOp' hDest'
      split at h
      · rename_i hLhs
        cases h
        exact ⟨⟨load, hLoad, hOp, hDest⟩, assign, hAssign, hOp', hDest', hLhs⟩
      · cases h
    · cases h
  · cases h

theorem copyAt_of_removes (h : removesCopyAt code i = some (temp, sym)) :
    CopyAt code i temp sym (copyEnd code sym (i + 2)) := by
  rw [removesCopyAt, Option.filter_eq_some_iff] at h
  obtain ⟨hWindow, hGuard⟩ := h
  obtain ⟨hLoad, hCopy⟩ := copyWindowAt_spec hWindow
  rw [Bool.and_eq_true, Bool.and_eq_true] at hGuard
  have hDrop : ∀ k, (code.drop (i + 2))[k]? = code[i + 2 + k]? := fun k =>
    List.getElem?_drop
  refine ⟨hLoad, hCopy, Nat.le_add_right _ _, ?_, ?_, ?_⟩
  · intro q c hc hLe hLt
    unfold copyEnd at hLt
    have hBefore : q - (i + 2) < (code.drop (i + 2)).findIdx
        fun c => c.isControl || redefines sym c := by omega
    have hNot := List.not_of_lt_findIdx hBefore
    have hGet : (code.drop (i + 2))[q - (i + 2)]? = some c := by
      rw [hDrop, show i + 2 + (q - (i + 2)) = q by omega, hc]
    rw [(List.getElem_of_getElem? hGet).2, Bool.or_eq_false_iff] at hNot
    exact hNot
  · intro c hc
    rw [hc] at hGuard
    have hControl : c.isControl = false := by simpa using hGuard.1.1
    have hGet : (code.drop (i + 2))[(code.drop (i + 2)).findIdx
        fun c => c.isControl || redefines sym c]? = some c := by
      rw [hDrop]
      exact hc
    obtain ⟨hLt, hEq⟩ := List.getElem_of_getElem? hGet
    have hStops := List.findIdx_getElem (w := hLt)
    rw [hEq, hControl, Bool.false_or] at hStops
    exact hStops
  · have hLe : (code.drop (i + 2)).findIdx (fun c => c.isControl || redefines sym c) ≤
        (code.drop (i + 2)).length := List.findIdx_le_length
    rw [List.length_drop] at hLe
    unfold copyEnd
    omega

theorem eliminateAt_getElem? (h : removesCopyAt code i = some (temp, sym)) (q : Nat) :
    (eliminateLoadSymbolCopyAt code i)[q]? = code[q]?.map fun c =>
      if q = i + 1 then makeNop c
      else if i + 2 ≤ q ∧ q < copyEnd code sym (i + 2) then renameUses sym temp c
      else c := by
  rw [eliminateLoadSymbolCopyAt, h]
  rw [getElem?_mapIdx]

-- ---
-- Other operands with the same values
-- ---

variable {V M : Type} {machine : Machine V M}

variable {c : IRInstruction}

/-- **An instruction with other operands of the same values does the same.** -/
theorem execute_operands {state : IRState V M} {c' : IRInstruction}
    (hOp : c'.op = c.op) (hText : c'.text = c.text) (hFloat : c'.isFloat = c.isFloat)
    (hBits : c'.floatBits = c.floatBits) (hAst : c'.astRef = c.astRef)
    (hArguments : c'.arguments = c.arguments)
    (hDest : c.op.writesDestination = true ∨ c.op = .store → c'.dest = c.dest)
    (hLhs : machine.value state c'.lhs = machine.value state c.lhs)
    (hRhs : machine.value state c'.rhs = machine.value state c.rhs)
    (hPlaces : c.op = .addressOf ∨ c.op = .rotateAdd → c'.lhs = c.lhs ∧ c'.rhs = c.rhs)
    (hNone : c'.lhs = .none ↔ c.lhs = .none)
    (hMoved : ∀ v, c.op = .assign → machine.value state c.lhs = some v →
      machine.moved c' v = machine.moved c v) :
    machine.execute code state c' = machine.execute code state c := by
  have hWidth : c'.floatWidth = c.floatWidth := by
    rw [IRInstruction.floatWidth, IRInstruction.floatWidth, hFloat, hBits]
  have hConverted : machine.converted c' = machine.converted c := by
    funext v
    rw [Machine.converted, Machine.converted, hFloat, hBits]
  have hOperate : machine.operate c' = machine.operate c := by
    funext op a b
    rw [Machine.operate, Machine.operate, hAst, hWidth]
  have hCompute : c.op ≠ .addressOf → machine.compute state c' = machine.compute state c := by
    intro hNot
    unfold Machine.compute
    rw [hOp, hText, hLhs, hRhs, hWidth, hOperate]
    cases hCase : c.op <;> first | rfl | exact absurd hCase hNot | skip
    cases hValue : machine.value state c.lhs with
    | none => rfl
    | some v => rw [map_some, map_some, hMoved v hCase hValue]
  unfold Machine.execute Machine.executeKernel
  rw [hOp, hText, hWidth, hArguments, hLhs, hRhs, hConverted]
  cases hCase : c.op <;> rw [hCase] at hDest hPlaces hCompute <;> dsimp only
  case addressOf =>
    rw [hDest (Or.inl rfl), Machine.compute, Machine.compute, hOp, hCase, (hPlaces (Or.inl rfl)).1]
  case assign => rw [hDest (Or.inl rfl), hCompute (by decide)]
  case binary => rw [hDest (Or.inl rfl), hCompute (by decide)]
  case unary => rw [hDest (Or.inl rfl), hCompute (by decide)]
  case cast => rw [hDest (Or.inl rfl), hCompute (by decide)]
  case rotateAdd =>
    rw [hDest (Or.inl rfl), (hPlaces (Or.inr rfl)).1, (hPlaces (Or.inr rfl)).2]
  case store => rw [hDest (Or.inr rfl)]
  case return_ =>
    by_cases hIs : c.lhs = .none
    · rw [hIs, hNone.mpr hIs]
    · have hIs' : c'.lhs ≠ .none := fun hEq => hIs (hNone.mp hEq)
      generalize hA : c'.lhs = a at hLhs hIs'
      generalize hB : c.lhs = b at hLhs hIs
      cases a <;> cases b <;>
        first
        | exact absurd rfl hIs
        | exact absurd rfl hIs'
        | (dsimp only; rw [hLhs])
  all_goals first
    | rfl
    | (rw [hDest (Or.inl rfl)]; done)
    | simp [hDest (Or.inl rfl), hLhs, hRhs]

-- ---
-- One copy
-- ---

/-- No use of the copied symbol is missed: the symbol is private; in the stretch no inline
assembly, no argument, no address and no rotation names it; behind a new definition of the temp
it is not read; and its own new definition does not read it. -/
structure CopySafe (resident : String → Bool) (instructions : List IRInstruction) (i : Nat)
    (temp sym : String) : Prop where
  isPrivate : resident sym = false
  uses : ∀ q c, instructions[q]? = some c → i + 2 ≤ q → q < copyEnd instructions sym (i + 2) →
    c.op ≠ .inlineAsm ∧ .symbol sym ∉ c.arguments ∧ (c.op = .store → c.dest ≠ .symbol sym) ∧
      (c.op = .addressOf ∨ c.op = .rotateAdd → c.lhs ≠ .symbol sym ∧ c.rhs ≠ .symbol sym)
  fresh : ∀ q c q' c', instructions[q]? = some c → instructions[q']? = some c' → i + 2 ≤ q →
    q < q' → q' < copyEnd instructions sym (i + 2) → .temp temp ∈ c.writes →
    c'.lhs ≠ .symbol sym ∧ c'.rhs ≠ .symbol sym
  redefinition : ∀ c, instructions[copyEnd instructions sym (i + 2)]? = some c →
    .symbol sym ∉ c.reads

/-- No word is changed by a move: the copy delivers what was loaded (the symbol is not one
of four bytes in a register, or the word is its own low half), and an assignment that is renamed
delivers what it did. -/
structure LoadedCopyFits (machine : Machine V M) (instructions : List IRInstruction) (i : Nat)
    (temp sym : String) (state : IRState V M) : Prop where
  copy : ∀ c v, instructions[i + 1]? = some c → state.pc = i + 1 →
    state.temps temp = some v → machine.moved c v = v
  uses : ∀ c v, instructions[state.pc]? = some c → i + 2 ≤ state.pc →
    state.pc < copyEnd instructions sym (i + 2) → c.op = .assign → c.lhs = .symbol sym →
    machine.value state (.symbol sym) = some v →
    machine.moved (renameUses sym temp c) v = machine.moved c v

/-- How the states of the two functions correspond. -/
inductive CopyRel (instructions : List IRInstruction) (i : Nat) (temp sym : String) (stop : Nat) :
    IRState V M → IRState V M → Prop
  | outside {s : IRState V M} : s.pc ≤ i ∨ stop < s.pc → CopyRel instructions i temp sym stop s s
  | copy {s : IRState V M} {v : V} : s.pc = i + 1 → s.temps temp = some v →
    CopyRel instructions i temp sym stop s s
  | stretch {e s : IRState V M} : i + 2 ≤ s.pc → s.pc ≤ stop →
    AgreeBut (fun operand => operand = .symbol sym) e s →
    ((∀ q c, instructions[q]? = some c → i + 2 ≤ q → q < s.pc → .temp temp ∉ c.writes) →
      ∃ v, s.temps temp = some v ∧ s.locals sym = some v) →
    CopyRel instructions i temp sym stop e s

variable {operand : IROperand} {e start : IRState V M} {old new : List IRInstruction}

section OneCopy

variable {i stop : Nat} {temp sym : String}

theorem renameOperand_ne (sym temp : String) (operand : IROperand) :
    renameOperand sym temp operand ≠ .symbol sym := by
  unfold renameOperand
  split
  · exact nofun
  · assumption

theorem renameOperand_of_ne (h : operand ≠ .symbol sym) :
    renameOperand sym temp operand = operand := if_neg h

variable {c : IRInstruction}

theorem dest_mem_writes (h : c.op.writesDestination = true) : c.dest ∈ c.writes := by
  unfold IRInstruction.writes
  cases hOp : c.op <;> rw [hOp] at h <;>
    first | exact absurd h (by decide) | simp [IROpcode.writesDestination]

theorem mem_reads (h : operand ∈ c.reads) :
    operand = c.lhs ∨ operand = c.rhs ∨ operand ∈ c.arguments ∨
      (operand = c.dest ∧ (c.op = .store ∨ c.op.writesDestination = true)) := by
  unfold IRInstruction.reads at h
  cases hOp : c.op <;> rw [hOp] at h <;>
    simp only [mem_cons, not_mem_nil, or_false, IROpcode.writesDestination] at h ⊢ <;>
    tauto

theorem mem_writes (h : operand ∈ c.writes) : (operand = c.dest ∧ c.op.writesDestination = true) ∨
      (c.op = .rotateAdd ∧ (operand = c.lhs ∨ operand = c.rhs)) ∨
      operand = c.arguments.headD .none := by
  unfold IRInstruction.writes at h
  cases hOp : c.op <;> rw [hOp] at h <;>
    simp [IROpcode.writesDestination] at h ⊢ <;> tauto

theorem redefines_iff :
    redefines sym c = true ↔ c.dest = .symbol sym ∧ c.op.writesDestination = true := by
  unfold redefines irInstructionWritesSymbol
  rw [Bool.and_eq_true, beq_iff_eq]
  constructor
  · rintro ⟨hWrites, hDest⟩
    rw [hDest] at hWrites
    exact ⟨hDest, hWrites⟩
  · rintro ⟨hDest, hWrites⟩
    rw [hDest]
    exact ⟨hWrites, rfl⟩

section

variable (hArguments : .symbol sym ∉ c.arguments) (hStore : c.op = .store → c.dest ≠ .symbol sym)
include hArguments hStore

theorem reads_renameUses :
    (renameUses sym temp c).reads = c.reads.map (renameOperand sym temp) := by
  have hMap : c.arguments.map (renameOperand sym temp) = c.arguments := by
    refine (map_congr_left fun operand hMem => ?_).trans (map_id _)
    refine renameOperand_of_ne ?_
    rintro rfl
    exact hArguments hMem
  unfold IRInstruction.reads renameUses
  cases hOp : c.op <;> rw [hOp] at hStore <;>
    simp only [map_cons, map_nil, hMap, reduceCtorEq, if_false, if_true]
  case store => rw [renameOperand_of_ne (hStore rfl)]

theorem renameUses_reads : ∀ operand ∈ (renameUses sym temp c).reads, operand ≠ .symbol sym := by
  rintro operand hMem rfl
  rw [reads_renameUses hArguments hStore] at hMem
  obtain ⟨o, -, hEq⟩ := mem_map.mp hMem
  exact renameOperand_ne sym temp o hEq

end

variable {s : IRState V M}

theorem renameUses_execute (hNot : redefines sym c = false)
    (hStore : c.op = .store → c.dest ≠ .symbol sym)
    (hPlaces : c.op = .addressOf ∨ c.op = .rotateAdd → c.lhs ≠ .symbol sym ∧ c.rhs ≠ .symbol sym)
    (hValue : c.lhs = .symbol sym ∨ c.rhs = .symbol sym →
      machine.value s (.temp temp) = machine.value s (.symbol sym))
    (hMoved : ∀ v, c.op = .assign → c.lhs = .symbol sym → machine.value s (.symbol sym) = some v →
      machine.moved (renameUses sym temp c) v = machine.moved c v) :
    machine.execute code s (renameUses sym temp c) = machine.execute code s c := by
  have hOperand : ∀ operand, (operand = .symbol sym →
      machine.value s (.temp temp) = machine.value s (.symbol sym)) →
      machine.value s (renameOperand sym temp operand) = machine.value s operand := by
    intro operand hEq
    unfold renameOperand
    split
    · rename_i hIs
      rw [hEq hIs, hIs]
    · rfl
  have hDest : c.op.writesDestination = true ∨ c.op = .store →
      (renameUses sym temp c).dest = c.dest := by
    intro hOp
    have hNe : c.dest ≠ .symbol sym := by
      intro hDest
      rcases hOp with hOp | hOp
      · rw [redefines_iff.mpr ⟨hDest, hOp⟩] at hNot
        cases hNot
      · exact hStore hOp hDest
    simp [renameUses, renameOperand_of_ne hNe]
  refine execute_operands rfl rfl rfl rfl rfl rfl hDest (hOperand _ fun h => hValue (Or.inl h))
    (hOperand _ fun h => hValue (Or.inr h)) ?_ ?_ ?_
  · intro hOp
    obtain ⟨hLhs, hRhs⟩ := hPlaces hOp
    exact ⟨renameOperand_of_ne hLhs, renameOperand_of_ne hRhs⟩
  · show renameOperand sym temp c.lhs = .none ↔ c.lhs = .none
    unfold renameOperand
    split
    · rename_i hEq
      rw [hEq]
      exact ⟨nofun, nofun⟩
    · exact Iff.rfl
  · intro v hOp hIs
    by_cases hLhs : c.lhs = .symbol sym
    · exact hMoved v hOp hLhs (hLhs ▸ hIs)
    · refine Machine.moved_congr rfl rfl (renameOperand_of_ne hLhs) (hDest (Or.inl ?_))
      rw [hOp]
      rfl

theorem eliminateAt_labelIndex (h : removesCopyAt code i = some (temp, sym)) (name : String) :
    labelIndex (eliminateLoadSymbolCopyAt code i) name = labelIndex code name := by
  refine labelIndex_congr ?_ name
  intro name q
  rw [eliminateAt_getElem? h, Option.map_map]
  cases hc : code[q]? with
  | none => rfl
  | some c =>
    rw [Option.map_some, Option.map_some, Function.comp_apply]
    split
    · rename_i hq
      obtain ⟨d, hd, hOp, -⟩ := (copyAt_of_removes h).copy
      rw [← hq, hc] at hd
      cases hd
      rw [hOp]
      rfl
    · split <;> rfl

theorem CopyAt.label_outside (h : CopyAt code i temp sym stop) {k : Nat} {name : String}
    (hIndex : labelIndex code name = some k) : k ≤ i ∨ stop < k := by
  obtain ⟨l, hl, hOp⟩ := getElem?_labelIndex hIndex
  by_contra hIn
  rcases Nat.lt_or_ge k (i + 2) with hLt | hGe
  · obtain ⟨d, hd, hAssign, -⟩ := h.copy
    rw [show i + 1 = k by omega, hl] at hd
    cases hd
    rw [hOp] at hAssign
    cases hAssign
  · rcases Nat.lt_or_ge k stop with hBefore | hAt
    · have hControl := (h.stretch k l hl hGe hBefore).1
      simp [IRInstruction.isControl, hOp] at hControl
    · rw [show k = stop by omega] at hl
      have hWrites := (redefines_iff.mp (h.redefined l hl)).2
      rw [hOp] at hWrites
      cases hWrites

theorem CopyAt.step_outside (h : CopyAt code i temp sym stop) {s' : IRState V M}
    (hPc : s.pc ≤ i ∨ stop < s.pc) (hStep : machine.step code s = .running s') :
    CopyRel code i temp sym stop s' s' := by
  obtain ⟨c, hc, hExec⟩ := step_running hStep
  rcases execute_pc hExec with hNext | ⟨-, name, -, hIndex⟩
  · by_cases hLoad : s.pc = i
    · obtain ⟨d, hd, hOp, hDest⟩ := h.load
      rw [hLoad, hd] at hc
      obtain rfl := some.inj hc
      have hWrites : IROperand.temp temp ∈ d.writes := by
        rw [← hDest]
        exact dest_mem_writes (by rw [hOp]; rfl)
      obtain ⟨v, hv⟩ := execute_writes hWrites hExec
      exact .copy (by omega) hv
    · exact .outside (by omega)
  · exact .outside (h.label_outside hIndex)

section

variable (h : removesCopyAt code i = some (temp, sym))
  (hSafe : CopySafe machine.resident code i temp sym)
include h hSafe

section

variable (hLo : i + 2 ≤ s.pc) (hAgree : AgreeBut (fun operand => operand = .symbol sym) e s)
  (hTemp : (∀ q c, code[q]? = some c → i + 2 ≤ q → q < s.pc → .temp temp ∉ c.writes) → ∃
    v, s.temps temp = some v ∧ s.locals sym = some v)
include hLo hAgree hTemp

theorem copy_step_stretch (hFits : LoadedCopyFits machine code i temp sym s)
    (hHi : s.pc < copyEnd code sym (i + 2)) :
    Outcome.Related (CopyRel code i temp sym (copyEnd code sym (i + 2)))
      (machine.step (eliminateLoadSymbolCopyAt code i) e)
      (machine.step code s) := by
  have hAt := copyAt_of_removes h
  have hPrivate : ∀ x, IROperand.symbol x = .symbol sym → machine.resident x = false := by
    rintro x ⟨⟩
    exact hSafe.isPrivate
  have hLocal : ∀ state : IRState V M, machine.value state (.symbol sym) = state.locals sym := by
    intro state
    rw [Machine.value, Machine.symbolValue, hSafe.isPrivate]
    rfl
  cases hc : code[s.pc]? with
  | none =>
    have hNone : (eliminateLoadSymbolCopyAt code i)[e.pc]? = none := by
      rw [eliminateAt_getElem? h, hAgree.pc, hc]
      rfl
    rw [Machine.step, hNone, Machine.step, hc]
    exact .returned (.stretch hLo (Nat.le_of_lt hHi) hAgree hTemp)
  | some c =>
    obtain ⟨hControl, hNot⟩ := hAt.stretch s.pc c hc hLo hHi
    obtain ⟨hAsm, hArguments, hStore, hPlaces⟩ := hSafe.uses s.pc c hc hLo hHi
    have hNew : (eliminateLoadSymbolCopyAt code i)[e.pc]? = some (renameUses sym temp c) := by
      rw [eliminateAt_getElem? h, hAgree.pc, hc, map_some, if_neg (by omega), if_pos ⟨hLo, hHi⟩]
    -- if the symbol is read, the temp still has its value
    have hValue : c.lhs = .symbol sym ∨ c.rhs = .symbol sym →
        machine.value s (.temp temp) = machine.value s (.symbol sym) := by
      intro hRead
      obtain ⟨v, hv, hx⟩ := hTemp fun q d hd hq hLt hWrites => by
        have := hSafe.fresh q d s.pc c hd hc hq hLt hHi hWrites
        exact hRead.elim this.1 this.2
      rw [hLocal, hx]
      exact hv
    have hRenamed : machine.execute code s (renameUses sym temp c) =
        machine.execute code s c :=
      renameUses_execute hNot hStore hPlaces hValue fun v => hFits.uses c v hc hLo hHi
    have hOut : Outcome.Related
        (AgreeBut fun operand => operand = .symbol sym ∧ operand ∉ (renameUses sym temp c).writes)
        (machine.execute code e (renameUses sym temp c))
        (machine.execute code s (renameUses sym temp c)) :=
      execute_agreeBut hAgree hPrivate hAsm (renameUses_reads hArguments hStore)
    rw [step_at hNew, step_at hc, execute_congr machine (eliminateAt_labelIndex h), ← hRenamed]
    generalize machine.execute code e (renameUses sym temp c) = outcome at hOut
    generalize hOld : machine.execute code s (renameUses sym temp c) = outcome' at hOut
    rw [hRenamed] at hOld
    cases hOut with
    | stuck => exact .stuck
    | returned hLast =>
      obtain ⟨-, rfl⟩ := execute_returned hOld
      exact .returned (.stretch hLo (Nat.le_of_lt hHi) (hLast.mono fun _ hDead => hDead.1) hTemp)
    | @running e' s' hNext =>
      have hPc : s'.pc = s.pc + 1 := by
        rcases execute_pc hOld with hNext | ⟨hOp, -⟩
        · exact hNext
        · rcases hOp with hOp | hOp | hOp <;> simp [IRInstruction.isControl, hOp] at hControl
      refine .running (.stretch (by omega) (by omega) (hNext.mono fun _ hDead => hDead.1) ?_)
      intro hNone
      obtain ⟨v, hv, hx⟩ := hTemp fun q d hd hq hLt => hNone q d hd hq (by omega)
      have hTempKept : machine.value s' (.temp temp) = machine.value s (.temp temp) :=
        execute_keeps hOld ⟨hNone s.pc c hc hLo (by omega), trivial⟩
      have hUntouched : .symbol sym ∉ c.writes := by
        intro hMem
        rcases mem_writes hMem with ⟨hDest, hOp⟩ | ⟨hOp, hIs⟩ | hHead
        · rw [redefines_iff.mpr ⟨hDest.symm, hOp⟩] at hNot
          cases hNot
        · obtain ⟨hLhs, hRhs⟩ := hPlaces (Or.inr hOp)
          exact hIs.elim (fun hEq => hLhs hEq.symm) fun hEq => hRhs hEq.symm
        · cases hArgs : c.arguments with
          | nil =>
            rw [hArgs] at hHead
            cases hHead
          | cons a rest =>
            rw [hArgs] at hHead hArguments
            exact hArguments (hHead ▸ mem_cons_self)
      have hSymKept : machine.value s' (.symbol sym) = machine.value s (.symbol sym) := by
        refine execute_keeps hOld ⟨hUntouched, hAsm, ?_⟩
        rw [hSafe.isPrivate]
        exact fun h => absurd h Bool.false_ne_true
      rw [hLocal, hLocal] at hSymKept
      exact ⟨v, hTempKept.trans hv, hSymKept.trans hx⟩

theorem copy_step_end (hPc : s.pc = copyEnd code sym (i + 2)) :
    Outcome.Related (CopyRel code i temp sym (copyEnd code sym (i + 2)))
      (machine.step (eliminateLoadSymbolCopyAt code i) e)
      (machine.step code s) := by
  have hAt := copyAt_of_removes h
  have hPrivate : ∀ x, IROperand.symbol x = .symbol sym → machine.resident x = false := by
    rintro x ⟨⟩
    exact hSafe.isPrivate
  have hSame : (eliminateLoadSymbolCopyAt code i)[e.pc]? = code[s.pc]? := by
    rw [eliminateAt_getElem? h, hAgree.pc]
    cases code[s.pc]? with
    | none => rfl
    | some c => rw [map_some, if_neg (by omega), if_neg (by omega)]
  cases hc : code[s.pc]? with
  | none =>
    rw [Machine.step, hSame, Machine.step, hc]
    exact .returned (.stretch hLo (Nat.le_of_eq hPc) hAgree hTemp)
  | some c =>
    rw [hPc] at hc
    obtain ⟨hDest, hOp⟩ := redefines_iff.mp (hAt.redefined c hc)
    rw [← hPc] at hc
    have hAsm : c.op ≠ .inlineAsm := by
      intro hIs
      rw [hIs] at hOp
      cases hOp
    rw [step_at (hSame.trans hc), step_at hc, execute_congr machine (eliminateAt_labelIndex h)]
    have hReads : ∀ operand ∈ c.reads, operand ≠ .symbol sym := by
      rintro operand hMem rfl
      exact hSafe.redefinition c (hPc ▸ hc) hMem
    have hOut : Outcome.Related (AgreeBut fun operand => operand = .symbol sym ∧ operand ∉ c.writes)
        (machine.execute code e c) (machine.execute code s c) :=
      execute_agreeBut hAgree hPrivate hAsm hReads
    generalize machine.execute code e c = outcome at hOut
    generalize hOld : machine.execute code s c = outcome' at hOut
    cases hOut with
    | stuck => exact .stuck
    | returned _ =>
      rw [(execute_returned hOld).1] at hOp
      cases hOp
    | @running e' s' hNext =>
      -- the symbol was the only difference
      have hNone : ∀ operand, ¬ (operand = .symbol sym ∧ operand ∉ c.writes) := by
        rintro operand ⟨rfl, hNot⟩
        exact hNot (hDest ▸ dest_mem_writes hOp)
      have hEq : e' = s' := by
        obtain ⟨hPcEq, hMemory, hTrace, hTemps, hLocals⟩ := hNext
        have hT : e'.temps = s'.temps := funext fun t => hTemps t (hNone _)
        have hL : e'.locals = s'.locals := funext fun x => hLocals x (hNone _)
        cases e'
        cases s'
        cases hPcEq
        cases hMemory
        cases hTrace
        cases hT
        cases hL
        rfl
      rw [hEq]
      refine .running (.outside (Or.inr ?_))
      rcases execute_pc hOld with hNextPc | ⟨hJump, -⟩
      · omega
      · rcases hJump with hJump | hJump | hJump <;> rw [hJump] at hOp <;> cases hOp

end

theorem copy_step (e s : IRState V M) (hFits : LoadedCopyFits machine code i temp sym s)
    (hRel : CopyRel code i temp sym (copyEnd code sym (i + 2)) e s) :
    Outcome.Related (CopyRel code i temp sym (copyEnd code sym (i + 2)))
      (machine.step (eliminateLoadSymbolCopyAt code i) e)
      (machine.step code s) := by
  have hAt := copyAt_of_removes h
  cases hRel with
  | outside hPc =>
    have hSame : machine.step (eliminateLoadSymbolCopyAt code i) e =
        machine.step code e := by
      have hGet : (eliminateLoadSymbolCopyAt code i)[e.pc]? = code[e.pc]? := by
        rw [eliminateAt_getElem? h]
        have := hAt.behind
        cases code[e.pc]? with
        | none => rfl
        | some c => rw [map_some, if_neg (by omega), if_neg (by omega)]
      rw [Machine.step, hGet, Machine.step]
      cases code[e.pc]? with
      | none => rfl
      | some c => exact execute_congr machine (eliminateAt_labelIndex h) e c
    rw [hSame]
    cases hStep : machine.step code e with
    | running s' => exact .running (hAt.step_outside hPc hStep)
    | returned value s' =>
      have hEq : s' = e := by
        unfold Machine.step at hStep
        split at hStep
        · cases hStep
          rfl
        · exact (execute_returned hStep).2
      rw [hEq]
      exact .returned (.outside hPc)
    | stuck s' => exact .stuck
  | @copy v hPc hv =>
    obtain ⟨c, hc, hOp, hDest, hLhs⟩ := hAt.copy
    have hMoved := hFits.copy c v hc hPc hv
    rw [← hPc] at hc
    have hOld : machine.step code e = .running (machine.write e (.symbol sym) v).next := by
      rw [step_at hc, Machine.execute, hOp]
      rw [Machine.compute, hOp]
      rw [hLhs, hDest, show machine.value e (.temp temp) = e.temps temp from rfl, hv]
      dsimp only
      rw [map_some, hMoved]
      rfl
    have hNew : machine.step (eliminateLoadSymbolCopyAt code i) e = .running e.next := by
      rw [Machine.step, eliminateAt_getElem? h, hc, map_some, if_pos hPc]
      rfl
    have hWrite : machine.write e (.symbol sym) v =
        { e with locals := Function.update e.locals sym (some v) } := by
      rw [Machine.write, hSafe.isPrivate]
      rfl
    rw [hOld, hNew]
    refine .running (.stretch ?_ ?_ (AgreeBut.next ?_) ?_)
    · simp [IRState.next, hPc]
    · have := hAt.behind
      simp only [IRState.next, Machine.write_pc]
      omega
    · have hRefl : AgreeBut (fun operand => operand = .symbol sym) e e := .refl _ e
      refine AgreeBut.write_dead hRefl (show IROperand.symbol sym = .symbol sym from rfl) ?_ v
      rintro x ⟨⟩
      exact hSafe.isPrivate
    · intro _
      refine ⟨v, ?_, ?_⟩
      · rw [hWrite]
        exact hv
      · rw [hWrite]
        exact Function.update_self _ _ _
  | stretch hLo hHi hAgree hTemp =>
    rcases Nat.lt_or_ge s.pc (copyEnd code sym (i + 2)) with hLt | hGe
    · exact copy_step_stretch h hSafe hLo hAgree hTemp hFits hLt
    · exact copy_step_end h hSafe hLo hAgree hTemp (by omega)

end

/-- **Both functions see the same values.** -/
def SeesSame (machine : Machine V M) (old new : List IRInstruction) (dead : IROperand → Prop)
    (e s : IRState V M) : Prop :=
  AgreeBut dead e s ∧ ∀ c', new[e.pc]? = some c' → c'.op ≠ .nop → ∃ c, old[s.pc]? = some c ∧
    c'.op = c.op ∧ c'.reads.map (machine.value e) = c.reads.map (machine.value s)

theorem SeesSame.trans {middle : List IRInstruction} {dead : IROperand → Prop} {r : IRState V M}
    (h : SeesSame machine middle new dead e r) (h' : SeesSame machine old middle dead r s) :
    SeesSame machine old new dead e s := by
  refine ⟨h.1.trans h'.1, ?_⟩
  intro c' hc' hNop
  obtain ⟨d, hd, hOp, hReads⟩ := h.2 c' hc' hNop
  obtain ⟨c, hc, hOp', hReads'⟩ := h'.2 d hd (hOp ▸ hNop)
  exact ⟨c, hc, hOp.trans hOp', hReads.trans hReads'⟩

section

variable (h : removesCopyAt code i = some (temp, sym))
  (hSafe : CopySafe machine.resident code i temp sym)
include h hSafe

theorem CopyRel.seesSame (hRel : CopyRel code i temp sym (copyEnd code sym (i + 2)) e s) :
    SeesSame machine code (eliminateLoadSymbolCopyAt code i)
      (fun operand => operand = .symbol sym) e s := by
  have hAt := copyAt_of_removes h
  have hBehind := hAt.behind
  cases hRel with
  | outside hPc =>
    refine ⟨.refl _ _, ?_⟩
    intro c' hc' _
    rw [eliminateAt_getElem? h] at hc'
    obtain ⟨c, hc, hEq⟩ := map_eq_some_iff.mp hc'
    rw [if_neg (by omega), if_neg (by omega)] at hEq
    exact ⟨c, hc, by rw [hEq], by rw [hEq]⟩
  | copy hPc _ =>
    refine ⟨.refl _ _, ?_⟩
    intro c' hc' hNop
    rw [eliminateAt_getElem? h] at hc'
    obtain ⟨c, hc, hEq⟩ := map_eq_some_iff.mp hc'
    rw [if_pos hPc] at hEq
    rw [← hEq] at hNop
    exact absurd rfl hNop
  | stretch hLo hHi hAgree hTemp =>
    refine ⟨hAgree, ?_⟩
    intro c' hc' _
    rw [eliminateAt_getElem? h, hAgree.pc] at hc'
    obtain ⟨c, hc, hEq⟩ := map_eq_some_iff.mp hc'
    rw [if_neg (by omega)] at hEq
    rcases Nat.lt_or_ge s.pc (copyEnd code sym (i + 2)) with hLt | hGe
    · rw [if_pos ⟨hLo, hLt⟩] at hEq
      obtain ⟨-, hNot⟩ := hAt.stretch s.pc c hc hLo hLt
      obtain ⟨-, hArguments, hStore, -⟩ := hSafe.uses s.pc c hc hLo hLt
      refine ⟨c, hc, by rw [← hEq]; rfl, ?_⟩
      rw [← hEq, reads_renameUses hArguments hStore, List.map_map]
      refine map_congr_left ?_
      intro operand hMem
      rw [Function.comp_apply]
      by_cases hIs : operand = .symbol sym
      · -- the symbol itself is read: its value is in the temp
        subst hIs
        have hRead : c.lhs = .symbol sym ∨ c.rhs = .symbol sym := by
          rcases mem_reads hMem with hIs | hIs | hIn | ⟨hIs, hOp⟩
          · exact Or.inl hIs.symm
          · exact Or.inr hIs.symm
          · exact absurd hIn hArguments
          · rcases hOp with hOp | hOp
            · exact absurd hIs.symm (hStore hOp)
            · rw [redefines_iff.mpr ⟨hIs.symm, hOp⟩] at hNot
              cases hNot
        obtain ⟨v, hv, hx⟩ := hTemp fun q d hd hq hBefore hWrites => by
          have := hSafe.fresh q d s.pc c hd hc hq hBefore hLt hWrites
          exact hRead.elim this.1 this.2
        rw [renameOperand, if_pos rfl,
          show machine.value e (.temp temp) = e.temps temp from rfl, hAgree.temps temp nofun, hv,
          Machine.value, Machine.symbolValue, hSafe.isPrivate]
        exact hx.symm
      · rw [renameOperand_of_ne hIs]
        exact hAgree.value hIs
    · rw [if_neg (by omega)] at hEq
      refine ⟨c, hc, by rw [hEq], ?_⟩
      rw [← hEq]
      refine map_congr_left ?_
      intro operand hMem
      refine hAgree.value ?_
      rintro rfl
      rw [show s.pc = copyEnd code sym (i + 2) by omega] at hc
      exact hSafe.redefinition c hc hMem

/-- **One copy.** -/
theorem copy_in_step (hStart : start.pc = 0)
    (hFits : ∀ m s, machine.run code m (.running start) = .running s →
      LoadedCopyFits machine code i temp sym s) (n : Nat) :
    Outcome.Related (SeesSame machine code (eliminateLoadSymbolCopyAt code i)
        fun operand => operand = .symbol sym)
      (machine.run (eliminateLoadSymbolCopyAt code i) n (.running start))
      (machine.run code n (.running start)) := by
  refine (run_related (copy_step h hSafe) n start start hFits (.outside (Or.inl ?_))).mono ?_
  · rw [hStart]
    exact Nat.zero_le i
  · intro e s hRel
    exact hRel.seesSame h hSafe

end

end OneCopy

-- ---
-- The copies behind
-- ---

section Behind

variable {i j : Nat} {temp sym t x : String}

theorem renameOperand_symbol (h : renameOperand sym temp operand = .symbol x) :
    operand = .symbol x := by
  unfold renameOperand at h
  split at h
  · cases h
  · exact h

theorem writes_renameUses (hNot : redefines sym c = false)
    (hRotate : c.op = .rotateAdd → c.lhs ≠ .symbol sym ∧ c.rhs ≠ .symbol sym) :
    (renameUses sym temp c).writes = c.writes := by
  have hDest : c.op.writesDestination = true → renameOperand sym temp c.dest = c.dest := by
    intro hOp
    refine renameOperand_of_ne ?_
    intro hIs
    rw [redefines_iff.mpr ⟨hIs, hOp⟩] at hNot
    cases hNot
  unfold IRInstruction.writes renameUses
  cases hOp : c.op <;> rw [hOp] at hDest hRotate <;>
    simp only [IROpcode.writesDestination, if_true, if_false, Bool.false_eq_true, reduceCtorEq] <;>
    first
    | rfl
    | rw [hDest rfl, renameOperand_of_ne (hRotate rfl).1, renameOperand_of_ne (hRotate rfl).2]
    | rw [hDest rfl]

theorem redefines_renameUses (hNot : redefines sym c = false) (x : String) :
    redefines x (renameUses sym temp c) = redefines x c := by
  rw [Bool.eq_iff_iff, redefines_iff, redefines_iff]
  show (if c.op = .store then c.dest else renameOperand sym temp c.dest) = .symbol x ∧
    c.op.writesDestination = true ↔ _
  constructor
  · rintro ⟨hDest, hOp⟩
    split at hDest
    · exact ⟨hDest, hOp⟩
    · exact ⟨renameOperand_symbol hDest, hOp⟩
  · rintro ⟨hDest, hOp⟩
    have hNe : c.dest ≠ .symbol sym := by
      intro hIs
      rw [redefines_iff.mpr ⟨hIs, hOp⟩] at hNot
      cases hNot
    rw [renameOperand_of_ne hNe, ite_self]
    exact ⟨hDest, hOp⟩

theorem copyUses_renameUses (hNe : x ≠ sym) :
    copyUses x (renameUses sym temp c) = copyUses x c := by
  have hOperand : ∀ operand, renameOperand sym temp operand = .symbol x ↔ operand = .symbol x := by
    intro operand
    refine ⟨renameOperand_symbol, ?_⟩
    rintro rfl
    refine renameOperand_of_ne ?_
    intro hEq
    exact hNe (IROperand.symbol.inj hEq)
  unfold copyUses renameUses
  simp only [hOperand]
  by_cases hStore : c.op = .store
  · simp only [if_pos hStore]
  · simp only [if_neg hStore, hOperand]

theorem behind_cases (h : removesCopyAt code i = some (temp, sym)) {q : Nat}
    (hq : i + 2 ≤ q) {c' : IRInstruction}
    (hc' : (eliminateLoadSymbolCopyAt code i)[q]? = some c') :
    ∃ c, code[q]? = some c ∧ (c' = c ∨ (q < copyEnd code sym (i + 2) ∧ redefines sym c = false ∧
        c' = renameUses sym temp c)) := by
  rw [eliminateAt_getElem? h] at hc'
  obtain ⟨c, hc, hEq⟩ := map_eq_some_iff.mp hc'
  refine ⟨c, hc, ?_⟩
  rw [if_neg (by omega)] at hEq
  split at hEq
  · rename_i hIn
    exact Or.inr ⟨hIn.2, ((copyAt_of_removes h).stretch q c hc hIn.1 hIn.2).2, hEq.symm⟩
  · exact Or.inl hEq.symm

theorem copyWindowAt_behind (h : removesCopyAt code i = some (temp, sym))
    (hSafe : ∀ q c q' c', code[q]? = some c → code[q']? = some c' → i + 2 ≤ q →
      q < q' → q' < copyEnd code sym (i + 2) → .temp temp ∈ c.writes →
      c'.lhs ≠ .symbol sym ∧ c'.rhs ≠ .symbol sym) (hij : i < j)
    (hFound : copyWindowAt (eliminateLoadSymbolCopyAt code i) j = some (t, x)) :
    i + 2 ≤ j ∧ copyWindowAt code j = some (t, x) := by
  obtain ⟨⟨load', hLoad', hLoadOp, hLoadDest⟩, assign', hAssign', hOp, hDest, hLhs⟩ :=
    copyWindowAt_spec hFound
  have hFar : i + 2 ≤ j := by
    by_contra hNear
    rw [show j = i + 1 by omega, eliminateAt_getElem? h] at hLoad'
    obtain ⟨c, -, hEq⟩ := map_eq_some_iff.mp hLoad'
    rw [if_pos rfl] at hEq
    rw [← hEq] at hLoadOp
    cases hLoadOp
  refine ⟨hFar, ?_⟩
  obtain ⟨load, hLoad, hLoadCases⟩ := behind_cases h hFar hLoad'
  obtain ⟨assign, hAssign, hAssignCases⟩ := behind_cases h (by omega) hAssign'
  have hLoadIs : load.op = .load ∧ load.dest = .temp t := by
    rcases hLoadCases with rfl | ⟨-, hNot, rfl⟩
    · exact ⟨hLoadOp, hLoadDest⟩
    · refine ⟨hLoadOp, ?_⟩
      have hNe : load.dest ≠ .symbol sym := by
        intro hIs
        have hWrites : load.op.writesDestination = true := by
          rw [show load.op = .load from hLoadOp]
          rfl
        rw [redefines_iff.mpr ⟨hIs, hWrites⟩] at hNot
        cases hNot
      rw [← hLoadDest]
      simp [renameUses, renameOperand_of_ne hNe]
  have hAssignIs : assign.op = .assign ∧ assign.dest = .symbol x ∧ assign.lhs = .temp t := by
    rcases hAssignCases with rfl | ⟨hIn, hNot, rfl⟩
    · exact ⟨hOp, hDest, hLhs⟩
    · have hAssignOp : assign.op = .assign := hOp
      refine ⟨hAssignOp, ?_, ?_⟩
      · have hRenamed : (if assign.op = .store then assign.dest
            else renameOperand sym temp assign.dest) = .symbol x := hDest
        rw [hAssignOp] at hRenamed
        exact renameOperand_symbol hRenamed
      · -- a renamed copy would be one of a temp that was loaded again
        have hNe : assign.lhs ≠ .symbol sym := by
          intro hIs
          have hRenamed : renameOperand sym temp assign.lhs = .temp t := hLhs
          rw [hIs, renameOperand, if_pos rfl] at hRenamed
          have hWrites : .temp temp ∈ load.writes := by
            rw [hRenamed, ← hLoadIs.2]
            exact dest_mem_writes (by rw [hLoadIs.1]; rfl)
          exact (hSafe j load (j + 1) assign hLoad hAssign hFar (by omega) hIn hWrites).1 hIs
        have hSame : renameOperand sym temp assign.lhs = .temp t := hLhs
        rwa [renameOperand_of_ne hNe] at hSame
  rw [copyWindowAt, hLoad, hAssign]
  dsimp only
  rw [hLoadIs.1, hLoadIs.2, hAssignIs.1, hAssignIs.2.1]
  dsimp only
  rw [if_pos hAssignIs.2.2]

def copyView (x : String) (c : IRInstruction) : Bool × Bool × Nat :=
  (c.isControl || redefines x c, c.isControl, copyUses x c)

section

variable {x : String} {start : Nat}
  (hView : (new.drop start).map (copyView x) = (old.drop start).map (copyView x))
include hView

theorem copyEnd_congr : copyEnd new x start = copyEnd old x start := by
  have hVia : ∀ l : List IRInstruction, copyEnd l x start =
      start + ((l.drop start).map (copyView x)).findIdx Prod.fst := by
    intro l
    rw [findIdx_map]
    rfl
  rw [hVia, hVia, hView]

theorem copyUseCount_congr : copyUseCount new x start = copyUseCount old x start := by
  have hVia : ∀ l : List IRInstruction, copyUseCount l x start =
      ((((l.drop start).map (copyView x)).take (copyEnd l x start - start)).map
        fun view => view.2.2).sum := by
    intro l
    rw [← List.map_take, List.map_map]
    rfl
  rw [hVia, hVia, hView, copyEnd_congr hView]

end

theorem copyView_behind (h : removesCopyAt code i = some (temp, sym)) (hFar : i + 2 ≤ j)
    (hWindow : copyWindowAt code j = some (t, x)) :
    ((eliminateLoadSymbolCopyAt code i).drop (j + 2)).map (copyView x) =
      (code.drop (j + 2)).map (copyView x) := by
  apply ext_getElem?
  intro k
  rw [getElem?_map, getElem?_map, getElem?_drop, getElem?_drop]
  generalize hq : j + 2 + k = q
  cases hc' : (eliminateLoadSymbolCopyAt code i)[q]? with
  | none =>
    rw [eliminateAt_getElem? h, map_eq_none_iff] at hc'
    rw [hc']
  | some c' =>
    obtain ⟨c, hc, hCases⟩ := behind_cases h (by omega) hc'
    rw [hc, map_some, map_some]
    rcases hCases with rfl | ⟨hIn, hNot, rfl⟩
    · rfl
    · -- the copied symbol is another one: its own copy would end the first stretch
      have hNe : x ≠ sym := by
        rintro rfl
        obtain ⟨-, assign, hAssign, hOp, hDest, -⟩ := copyWindowAt_spec hWindow
        have hWrites : assign.op.writesDestination = true := by
          rw [hOp]
          rfl
        have hStretch := (copyAt_of_removes h).stretch (j + 1) assign hAssign (by omega) (by omega)
        rw [redefines_iff.mpr ⟨hDest, hWrites⟩] at hStretch
        cases hStretch.2
      rw [copyView, copyView, redefines_renameUses hNot, copyUses_renameUses hNe]
      rfl

/-- **A later copy is still there, and still a safe one.** -/
theorem CopySafe.rename {resident : String → Bool} (h : removesCopyAt code i = some (temp, sym))
    (hSafe : CopySafe resident code i temp sym) (hij : i < j)
    (hFound : removesCopyAt (eliminateLoadSymbolCopyAt code i) j = some (t, x)) :
    removesCopyAt code j = some (t, x) ∧
      copyEnd (eliminateLoadSymbolCopyAt code i) x (j + 2) = copyEnd code x (j + 2) ∧
      (CopySafe resident code j t x →
        CopySafe resident (eliminateLoadSymbolCopyAt code i) j t x) := by
  have hFilter := hFound
  rw [removesCopyAt, filter_eq_some_iff] at hFilter
  obtain ⟨hWindow', hGuard⟩ := hFilter
  obtain ⟨hFar, hWindow⟩ := copyWindowAt_behind h hSafe.fresh hij hWindow'
  have hView := copyView_behind h hFar hWindow
  have hEnd := copyEnd_congr hView
  have hBehind : i + 2 ≤ copyEnd code x (j + 2) := by
    unfold copyEnd
    omega
  refine ⟨?_, hEnd, ?_⟩
  · rw [removesCopyAt, filter_eq_some_iff]
    refine ⟨hWindow, ?_⟩
    have hControl : ∀ q, i + 2 ≤ q → (eliminateLoadSymbolCopyAt code i)[q]?.any (·.isControl) =
          code[q]?.any (·.isControl) := by
      intro q hq
      rw [eliminateAt_getElem? h]
      cases code[q]? with
      | none => rfl
      | some c =>
        rw [map_some, if_neg (by omega)]
        split <;> rfl
    dsimp only at hGuard ⊢
    rw [hEnd, copyUseCount_congr hView, hControl _ hBehind] at hGuard
    exact hGuard
  · intro hLater
    -- a renamed instruction is one of the first stretch
    have hUses : ∀ {q : Nat} {c : IRInstruction}, code[q]? = some c → i + 2 ≤ q →
        q < copyEnd code sym (i + 2) →
        c.op = .rotateAdd → c.lhs ≠ .symbol sym ∧ c.rhs ≠ .symbol sym := by
      intro q c hc hLo hHi hOp
      exact (hSafe.uses q c hc hLo hHi).2.2.2 (Or.inr hOp)
    refine ⟨hLater.isPrivate, ?_, ?_, ?_⟩
    · intro q c' hc' hLo hHi
      rw [hEnd] at hHi
      obtain ⟨c, hc, hCases⟩ := behind_cases h (by omega) hc'
      obtain ⟨hAsm, hArguments, hStore, hPlaces⟩ := hLater.uses q c hc hLo hHi
      rcases hCases with rfl | ⟨-, -, rfl⟩
      · exact ⟨hAsm, hArguments, hStore, hPlaces⟩
      · refine ⟨hAsm, hArguments, ?_, ?_⟩
        · intro hOp
          have hStoreOp : c.op = .store := hOp
          simp only [renameUses, if_pos hStoreOp]
          exact hStore hStoreOp
        · intro hOp
          obtain ⟨hLhs, hRhs⟩ := hPlaces hOp
          exact ⟨fun hEq => hLhs (renameOperand_symbol hEq),
            fun hEq => hRhs (renameOperand_symbol hEq)⟩
    · intro q c' q' d' hc' hd' hLo hLt hHi hWrites
      rw [hEnd] at hHi
      obtain ⟨c, hc, hCases⟩ := behind_cases h (by omega) hc'
      obtain ⟨d, hd, hCases'⟩ := behind_cases h (by omega) hd'
      have hOldWrites : .temp t ∈ c.writes := by
        rcases hCases with rfl | ⟨hIn, hNot, rfl⟩
        · exact hWrites
        · rwa [writes_renameUses hNot (hUses hc (by omega) hIn)] at hWrites
      obtain ⟨hLhs, hRhs⟩ := hLater.fresh q c q' d hc hd hLo hLt hHi hOldWrites
      rcases hCases' with rfl | ⟨-, -, rfl⟩
      · exact ⟨hLhs, hRhs⟩
      · exact ⟨fun hEq => hLhs (renameOperand_symbol hEq),
          fun hEq => hRhs (renameOperand_symbol hEq)⟩
    · intro c' hc' hMem
      rw [hEnd] at hc'
      obtain ⟨c, hc, hCases⟩ := behind_cases h hBehind hc'
      refine hLater.redefinition c hc ?_
      rcases hCases with rfl | ⟨hIn, -, rfl⟩
      · exact hMem
      · obtain ⟨-, hArguments, hStore, -⟩ := hSafe.uses _ c hc hBehind hIn
        rw [reads_renameUses hArguments hStore] at hMem
        obtain ⟨operand, hOperand, hEq⟩ := mem_map.mp hMem
        rwa [renameOperand_symbol hEq] at hOperand

end Behind

-- ---
-- The pass
-- ---

def Copied (instructions : List IRInstruction) (operand : IROperand) : Prop :=
  ∃ i temp sym, removesCopyAt instructions i = some (temp, sym) ∧ operand = .symbol sym

/-- An assignment that is still there moves what it moved, from a symbol that it named before. -/
def AssignsFrom (old new : List IRInstruction) : Prop :=
  ∀ (q : Nat) (c' : IRInstruction), new[q]? = some c' → c'.op = .assign →
    ∃ c, old[q]? = some c ∧ c'.isFloat = c.isFloat ∧ c'.floatBits = c.floatBits ∧
      c'.dest = c.dest ∧ ∀ x, c'.lhs = .symbol x → c.lhs = .symbol x

theorem AssignsFrom.eliminate (hFrom : AssignsFrom old code) {i : Nat} {temp sym : String}
    (h : removesCopyAt code i = some (temp, sym)) :
    AssignsFrom old (eliminateLoadSymbolCopyAt code i) := by
  intro q c' hc' hOp
  rw [eliminateAt_getElem? h] at hc'
  obtain ⟨c, hc, hEq⟩ := map_eq_some_iff.mp hc'
  split at hEq
  · rw [← hEq] at hOp
    cases hOp
  · split at hEq
    · rename_i hIn
      rw [← hEq] at hOp ⊢
      have hAssign : c.op = .assign := hOp
      obtain ⟨d, hd, hFloat, hBits, hDest, hLhs⟩ := hFrom q c hc hAssign
      have hNe : c.dest ≠ .symbol sym := by
        intro hIs
        have hNot := ((copyAt_of_removes h).stretch q c hc hIn.1 hIn.2).2
        rw [redefines_iff.mpr ⟨hIs, by rw [hAssign]; rfl⟩] at hNot
        cases hNot
      refine ⟨d, hd, hFloat, hBits, ?_, fun x hIs => hLhs x (renameOperand_symbol hIs)⟩
      simp only [renameUses, renameOperand_of_ne hNe, ite_self]
      exact hDest
    · rw [← hEq] at hOp ⊢
      exact hFrom q c hc hOp

/-- Where the states correspond, a copy that is still there fits as it did. -/
theorem LoadedCopyFits.current {current : List IRInstruction} {dead : IROperand → Prop} {k : Nat}
    {temp sym : String} (hFits : LoadedCopyFits machine code k temp sym s)
    (hSees : SeesSame machine code current dead e s) (hFrom : AssignsFrom code current)
    (hOld : removesCopyAt code k = some (temp, sym))
    (hHere : removesCopyAt current k = some (temp, sym))
    (hEnd : copyEnd current sym (k + 2) = copyEnd code sym (k + 2)) :
    LoadedCopyFits machine current k temp sym e := by
  have hRead : ∀ c', current[e.pc]? = some c' → c'.op = .assign → ∃ c, code[s.pc]? = some c ∧
      c.op = .assign ∧ machine.value e c'.lhs = machine.value s c.lhs ∧
      c'.isFloat = c.isFloat ∧ c'.floatBits = c.floatBits ∧ c'.dest = c.dest ∧
      ∀ x, c'.lhs = .symbol x → c.lhs = .symbol x := by
    intro c' hc' hOp'
    obtain ⟨c, hc, hOp, hReads⟩ := hSees.2 c' hc' (by rw [hOp']; decide)
    obtain ⟨d, hd, hFrom⟩ := hFrom _ c' hc' hOp'
    rw [hSees.1.pc, hc] at hd
    cases hd
    rw [hOp'] at hOp
    simp only [IRInstruction.reads, hOp', ← hOp, map_cons, cons.injEq] at hReads
    exact ⟨c, hc, hOp.symm, hReads.1, hFrom⟩
  refine ⟨?_, ?_⟩
  · intro c' v hc' hPc hv
    obtain ⟨d', hd', hOp', -, hLhs'⟩ := (copyAt_of_removes hHere).copy
    rw [hc'] at hd'
    cases hd'
    obtain ⟨c, hc, -, hValue, hFloat, hBits, hDest, -⟩ := hRead c' (by rw [hPc, hc']) hOp'
    have hPc' : s.pc = k + 1 := hSees.1.pc ▸ hPc
    obtain ⟨d, hd, -, -, hLhs⟩ := (copyAt_of_removes hOld).copy
    rw [← hPc', hc] at hd
    cases hd
    rw [hLhs, hLhs'] at hValue
    rw [Machine.moved_congr hFloat hBits (hLhs'.trans hLhs.symm) hDest]
    exact hFits.copy c v (hPc' ▸ hc) hPc' (hValue.symm.trans hv)
  · intro c' v hc' hLo hHi hOp' hLhs' hv
    obtain ⟨c, hc, hOp, hValue, hFloat, hBits, hDest, hLhs⟩ := hRead c' hc' hOp'
    have hIs := hLhs sym hLhs'
    rw [hLhs', hIs, hv] at hValue
    rw [hEnd, hSees.1.pc] at hHi
    rw [hSees.1.pc] at hLo
    have hUses := hFits.uses c v hc hLo hHi hOp hIs hValue.symm
    have hRenamed : machine.moved (renameUses sym temp c') v =
        machine.moved (renameUses sym temp c) v :=
      Machine.moved_congr hFloat hBits
        (congrArg (renameOperand sym temp) (hLhs'.trans hIs.symm))
          (by simp only [renameUses, hOp, hOp', hDest])
    rw [hRenamed, hUses, Machine.moved_congr hFloat hBits (hLhs'.trans hIs.symm) hDest]

/-- The first `k` places are done: the copies behind are safe, and the runs go in step. -/
structure CopiesDone (machine : Machine V M) (code current : List IRInstruction)
    (start : IRState V M) (k : Nat) : Prop where
  behind : ∀ j t x, k ≤ j → removesCopyAt current j = some (t, x) →
    removesCopyAt code j = some (t, x) ∧
      copyEnd current x (j + 2) = copyEnd code x (j + 2) ∧ CopySafe machine.resident current j t x
  assigns : AssignsFrom code current
  runs : ∀ n, Outcome.Related (SeesSame machine code current (Copied code))
    (machine.run current n (.running start)) (machine.run code n (.running start))

theorem loadCopies_upTo (machine : Machine V M) (code : List IRInstruction)
    (hSafe : ∀ i temp sym, removesCopyAt code i = some (temp, sym) →
      CopySafe machine.resident code i temp sym)
    (hStart : start.pc = 0)
    (hFits : ∀ n state, machine.run code n (.running start) = .running state →
      ∀ i temp sym, removesCopyAt code i = some (temp, sym) →
        LoadedCopyFits machine code i temp sym state) (k : Nat) :
    CopiesDone machine code ((List.range k).foldl eliminateLoadSymbolCopyAt code) start k := by
  induction k with
  | zero =>
    refine ⟨fun j t x _ hFound => ⟨hFound, rfl, hSafe j t x hFound⟩,
      fun q c hc _ => ⟨c, hc, rfl, rfl, rfl, fun _ h => h⟩, ?_⟩
    intro n
    have hSelf : ∀ e s : IRState V M, e = s → SeesSame machine code code (Copied code) e s := by
      rintro e s rfl
      exact ⟨.refl _ _, fun c hc _ => ⟨c, hc, rfl, rfl⟩⟩
    refine Outcome.Related.mono (R := Eq) ?_ hSelf
    rw [range_zero, foldl_nil]
    cases machine.run code n (.running start) with
    | running s => exact .running rfl
    | returned value s => exact .returned rfl
    | stuck s => exact .stuck
  | succ k ih =>
    rw [range_succ, foldl_append, foldl_cons, foldl_nil]
    generalize (range k).foldl eliminateLoadSymbolCopyAt code = current at ih
    cases hHere : removesCopyAt current k with
    | none =>
      have hSame : eliminateLoadSymbolCopyAt current k = current := by
        rw [eliminateLoadSymbolCopyAt, hHere]
      rw [hSame]
      exact ⟨fun j t x hj => ih.behind j t x (by omega), ih.assigns, ih.runs⟩
    | some copy =>
      obtain ⟨temp, sym⟩ := copy
      obtain ⟨hOld, hEnd, hCopySafe⟩ := ih.behind k temp sym (Nat.le_refl k) hHere
      refine ⟨?_, ih.assigns.eliminate hHere, ?_⟩
      · intro j t x hj hFound
        obtain ⟨hStill, hStop, hKeeps⟩ := hCopySafe.rename hHere (by omega) hFound
        obtain ⟨hFirst, hStop', hLater⟩ := ih.behind j t x (by omega) hStill
        exact ⟨hFirst, hStop.trans hStop', hKeeps hLater⟩
      · intro n
        have hNow : ∀ m e, machine.run current m (.running start) = .running e →
            LoadedCopyFits machine current k temp sym e := by
          intro m e hRun
          have hOut := ih.runs m
          rw [hRun] at hOut
          generalize hSource : machine.run code m (.running start) = outcome at hOut
          cases hOut with
          | running hSees =>
            exact (hFits m _ hSource k temp sym hOld).current hSees ih.assigns hOld hHere hEnd
        refine ((copy_in_step hHere hCopySafe hStart hNow n).comp (ih.runs n)).mono ?_
        rintro e s ⟨r, hNew, hRest⟩
        refine SeesSame.trans ⟨hNew.1.mono ?_, hNew.2⟩ hRest
        rintro operand rfl
        exact ⟨k, temp, sym, hOld, rfl⟩

/-- `x` is loaded and used; then comes `rest`. -/
def loadAndUse (rest : List IRInstruction) : IRFunction :=
  { name := "f", parameterNames := ["x"]
    instructions :=
      [{ op := .load, dest := .temp "t", lhs := .int 8, rhs := .int 8 },
       { op := .assign, dest := .symbol "x", lhs := .temp "t" },
       { op := .binary, text := some "+", dest := .temp "u", lhs := .symbol "x", rhs := .int 1 }] ++
      rest }

def loadStart : IRState (BitVec 64) Cells :=
  cellStart (fun x => if x = "x" then some 3 else none) id

def loadUseReturn : IRFunction := loadAndUse [{ op := .return_, lhs := .temp "u" }]

theorem loadAndUse_removes (h : removesCopyAt loadUseReturn.instructions i = some (temp, sym)) :
    i = 0 ∧ temp = "t" ∧ sym = "x" := by
  match i with
  | 0 =>
    cases h
    exact ⟨rfl, rfl, rfl⟩
  | 1 | 2 | 3 => cases h
  | i + 4 => cases h

end Mettle.IR
