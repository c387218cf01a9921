import Mettle.IR.FlowCleanup

/-!
# Mettle — rotate-add fusion

The pass of `ir/ir_optimize.c` that turns `t = a + b; next = t; a = b; b = next` into one
`ROTATE_ADD` and three nops, and what the code generator makes of that instruction. The temp of
the sum is gone afterwards, and the last copy has become a copy of the sum: the window and the
fused instruction differ if `next` and `a` are one symbol.

Both functions take four steps through a window, so their runs stay in step. Inside a window
they differ in the symbols that are being rotated; outside they differ in the temps of
fused sums only.
-/

namespace Mettle.IR

open Option

-- ---
-- The pass
-- ---

/-- The names in a window: the temp of the sum and the three symbols. -/
structure RotateWindow where
  sum : String
  next : String
  a : String
  b : String
  deriving DecidableEq

/-- The conditions of `ir_try_fuse_rotate_add_at` on its four instructions. -/
def matchRotateAdd (add assignNext assignA assignB : IRInstruction) : Option RotateWindow :=
  match add.dest, add.lhs, add.rhs, assignNext.dest with
  | .temp sum, .symbol a, .symbol b, .symbol next =>
    if add.op = .binary ∧ add.isFloat = false ∧ add.astRef = false ∧ add.text = some "+" ∧
        assignNext.op = .assign ∧ assignNext.lhs = .temp sum ∧
        assignA.op = .assign ∧ assignA.dest = .symbol a ∧ assignA.lhs = .symbol b ∧
        assignB.op = .assign ∧ assignB.dest = .symbol b ∧
        (assignB.lhs = .symbol next ∨ assignB.lhs = .temp sum) then
      some { sum, next, a, b }
    else none
  | _, _, _, _ => none

def rotateWindowAt (instructions : List IRInstruction) (index : Nat) : Option RotateWindow :=
  match instructions[index]?, instructions[index + 1]?, instructions[index + 2]?,
      instructions[index + 3]? with
  | some add, some assignNext, some assignA, some assignB =>
    matchRotateAdd add assignNext assignA assignB
  | _, _, _, _ => none

def RotateWindow.fused (window : RotateWindow) : IRInstruction :=
  { op := .rotateAdd
    dest := .symbol window.next
    lhs := .symbol window.a
    rhs := .symbol window.b
    text := some "+" }

/-- Fuses the four instructions at an index. -/
def irTryFuseRotateAddAt (instructions : List IRInstruction) (index : Nat) :
    List IRInstruction :=
  match rotateWindowAt instructions index with
  | some window =>
    (((instructions.set index window.fused).modify (index + 1) makeNop).modify (index + 2)
      makeNop).modify (index + 3) makeNop
  | none => instructions

/-- The loop of `ir_fuse_rotate_add_pass`: three more instructions are skipped after a
`ROTATE_ADD`. -/
def fuseRotateAddFrom : Nat → List IRInstruction → Nat → List IRInstruction
  | 0, instructions, _ => instructions
  | rounds + 1, instructions, i =>
    if i + 3 < instructions.length then
      let tried := irTryFuseRotateAddAt instructions i
      fuseRotateAddFrom rounds tried
        (if tried[i]?.any fun c => c.op == .rotateAdd then i + 4 else i + 1)
    else instructions

/-- Fuses wherever the four match. -/
def irFuseRotateAddPass (function : IRFunction) : IRFunction :=
  { function with
    instructions := fuseRotateAddFrom function.instructions.length function.instructions 0 }

-- ---
-- What the pass leaves
-- ---

/-- The new list is the old one with the windows at `fused` fused. -/
structure Fuses (old new : List IRInstruction) (fused : Nat → Prop) : Prop where
  start : ∀ p, fused p → ∃ window, rotateWindowAt old p = some window ∧ new[p]? = some window.fused
  inside : ∀ p k, fused p → 1 ≤ k → k ≤ 3 → ∃ c, new[p + k]? = some (makeNop c)
  elsewhere : ∀ q, (∀ p, fused p → q < p ∨ p + 3 < q) → new[q]? = old[q]?
  length : new.length = old.length

structure IsWindow (instructions : List IRInstruction) (p : Nat) (window : RotateWindow)
    (add assignNext assignA assignB : IRInstruction) : Prop where
  addAt : instructions[p]? = some add
  nextAt : instructions[p + 1]? = some assignNext
  aAt : instructions[p + 2]? = some assignA
  bAt : instructions[p + 3]? = some assignB
  addIs : add.op = .binary ∧ add.isFloat = false ∧ add.astRef = false ∧ add.text = some "+" ∧
    add.dest = .temp window.sum ∧ add.lhs = .symbol window.a ∧ add.rhs = .symbol window.b
  nextIs : assignNext.op = .assign ∧ assignNext.dest = .symbol window.next ∧
    assignNext.lhs = .temp window.sum
  aIs : assignA.op = .assign ∧ assignA.dest = .symbol window.a ∧ assignA.lhs = .symbol window.b
  bIs : assignB.op = .assign ∧ assignB.dest = .symbol window.b ∧
    (assignB.lhs = .symbol window.next ∨ assignB.lhs = .temp window.sum)

variable {p : Nat} {window : RotateWindow}
variable {code : List IRInstruction}

theorem rotateWindowAt_spec (h : rotateWindowAt code p = some window) :
    ∃ add assignNext assignA assignB,
      IsWindow code p window add assignNext assignA assignB := by
  unfold rotateWindowAt at h
  split at h
  · rename_i add assignNext assignA assignB hAdd hNext hA hB
    refine ⟨add, assignNext, assignA, assignB, ?_⟩
    unfold matchRotateAdd at h
    split at h
    · rename_i sum a b next hDest hLhs hRhs hNextDest
      split at h
      · rename_i hAll
        cases h
        obtain ⟨hOp, hFloat, hPlain, hText, hNextOp, hNextLhs, hAOp, hADest, hALhs, hBOp, hBDest,
          hBLhs⟩ := hAll
        exact ⟨hAdd, hNext, hA, hB, ⟨hOp, hFloat, hPlain, hText, hDest, hLhs, hRhs⟩,
          ⟨hNextOp, hNextDest, hNextLhs⟩, ⟨hAOp, hADest, hALhs⟩, ⟨hBOp, hBDest, hBLhs⟩⟩
      · cases h
    · cases h
  · cases h

variable {old new : List IRInstruction} {fused : Nat → Prop}

theorem Fuses.fuse (h : Fuses old new fused)
    {i : Nat} (hBehind : ∀ p, fused p → p + 3 < i) (hOld : rotateWindowAt old i = some window)
    (hNew : rotateWindowAt new i = some window) :
    Fuses old (irTryFuseRotateAddAt new i) fun p => fused p ∨ p = i := by
  obtain ⟨add, assignNext, assignA, assignB, hIs⟩ := rotateWindowAt_spec hNew
  have hTry : irTryFuseRotateAddAt new i =
      (((new.set i window.fused).modify (i + 1) makeNop).modify (i + 2) makeNop).modify (i + 3)
        makeNop := by
    rw [irTryFuseRotateAddAt, hNew]
  have hLt : i < new.length := (List.getElem_of_getElem? hIs.addAt).1
  have hAt : ∀ q, (irTryFuseRotateAddAt new i)[q]? =
      if q = i then some window.fused
      else if q = i + 1 ∨ q = i + 2 ∨ q = i + 3 then new[q]?.map makeNop else new[q]? := by
    intro q
    rw [hTry]
    by_cases hq : q = i
    · subst hq
      simp [hLt]
    · by_cases h1 : q = i + 1
      · subst h1
        simp
      · by_cases h2 : q = i + 2
        · subst h2
          simp
        · by_cases h3 : q = i + 3
          · subst h3
            simp
          · simp [hq, h1, h2, h3, Ne.symm hq, Ne.symm h1, Ne.symm h2, Ne.symm h3]
  refine ⟨?_, ?_, ?_, ?_⟩
  · rintro p (hp | rfl)
    · obtain ⟨w, hw, hAtP⟩ := h.start p hp
      have := hBehind p hp
      refine ⟨w, hw, ?_⟩
      rw [hAt, if_neg (by omega), if_neg (by omega), hAtP]
    · exact ⟨window, hOld, by rw [hAt, if_pos rfl]⟩
  · rintro p k (hp | rfl) h1 h3
    · obtain ⟨c, hc⟩ := h.inside p k hp h1 h3
      have := hBehind p hp
      refine ⟨c, ?_⟩
      rw [hAt, if_neg (by omega), if_neg (by omega), hc]
    · have hSome : ∃ c, new[p + k]? = some c := by
        have := (List.getElem_of_getElem? hIs.bAt).1
        exact ⟨new[p + k], List.getElem?_eq_getElem (by omega)⟩
      obtain ⟨c, hc⟩ := hSome
      exact ⟨c, by rw [hAt, if_neg (by omega), if_pos (by omega), hc, map_some]⟩
  · intro q hq
    have hHere := hq i (Or.inr rfl)
    rw [hAt, if_neg (by omega), if_neg (by omega)]
    exact h.elsewhere q fun p hp => hq p (Or.inl hp)
  · rw [hTry]
    simp [h.length]

theorem fuseRotateAddFrom_fuses (rounds : Nat) :
    ∀ (new : List IRInstruction) (i : Nat) (fused : Nat → Prop), Fuses old new fused →
      (∀ p, fused p → p + 3 < i) →
      ∃ fused', Fuses old (fuseRotateAddFrom rounds new i) fused' := by
  induction rounds with
  | zero =>
    intro new i fused h _
    exact ⟨fused, h⟩
  | succ rounds ih =>
    intro new i fused h hBehind
    rw [fuseRotateAddFrom]
    split
    · dsimp only
      -- the instructions from `i` on are still the old ones
      have hSame : ∀ k, new[i + k]? = old[i + k]? := by
        intro k
        refine h.elsewhere (i + k) ?_
        intro p hp
        have := hBehind p hp
        omega
      have hWindow : rotateWindowAt new i = rotateWindowAt old i := by
        rw [rotateWindowAt, rotateWindowAt, hSame 1, hSame 2, hSame 3,
          show new[i]? = old[i]? from hSame 0]
      cases hFound : rotateWindowAt old i with
      | none =>
        have hTry : irTryFuseRotateAddAt new i = new := by
          rw [irTryFuseRotateAddAt, hWindow, hFound]
        rw [hTry]
        refine ih new _ fused h ?_
        intro p hp
        have := hBehind p hp
        split <;> omega
      | some window =>
        have hNext := h.fuse hBehind hFound (hWindow.trans hFound)
        obtain ⟨w, -, hAtI⟩ := hNext.start i (Or.inr rfl)
        rw [if_pos (by rw [hAtI]; rfl)]
        refine ih _ _ _ hNext ?_
        rintro p (hp | rfl)
        · have := hBehind p hp
          omega
        · omega
    · exact ⟨fused, h⟩

theorem irFuseRotateAddPass_fuses (function : IRFunction) :
    ∃ fused, Fuses function.instructions (irFuseRotateAddPass function).instructions fused := by
  refine fuseRotateAddFrom_fuses _ function.instructions 0 (fun _ => False) ?_ ?_
  · exact ⟨nofun, nofun, fun _ _ => rfl, rfl⟩
  · exact nofun

-- ---
-- What the fused instruction does
-- ---

variable {V M : Type} {machine : Machine V M}

/-- The code of `code_generator_binary_emit_rotate_add` if all three symbols are in registers:
each of the three moves reads what is there by then. (The other code, for which the sum stays
in a scratch register, is what `Machine.execute` does.) -/
def rotateAddInRegisters (machine : Machine V M) (state : IRState V M) (next a b : String) :
    Outcome V M :=
  match machine.value state (.symbol a), machine.value state (.symbol b) with
  | some va, some vb =>
    match machine.binary "+" 0 va vb with
    | none => .stuck state
    | some sum =>
      let state := machine.write state (.symbol next) sum
      let state := machine.write state (.symbol a) ((machine.value state (.symbol b)).getD vb)
      .running (machine.write state (.symbol b)
        ((machine.value state (.symbol next)).getD sum)).next
  | _, _ => .stuck state

variable {state : IRState V M} {v : V}

/-- What was kept once is kept. -/
theorem Machine.kept_kept (machine : Machine V M) (state : IRState V M) (x : String) (v : V) :
    machine.kept (.symbol x) (machine.kept (.symbol x) v) = machine.kept (.symbol x) v := by
  simp only [Machine.kept]
  split
  · rw [← machine.get_set_self state.memory x v, machine.narrow_get]
  · rfl

theorem value_next_after {next a b : String} {sum : V} (hAlias : next = a → a = b)
    (hb : machine.value (machine.write state (.symbol next) sum) (.symbol b) = some v) :
    machine.value (machine.write (machine.write state (.symbol next) sum) (.symbol a) v)
      (.symbol next) = some (machine.kept (.symbol next) sum) := by
  by_cases hEq : next = a
  · obtain rfl := hAlias hEq
    subst hEq
    rw [machine.value_write_self (Or.inr ⟨_, rfl⟩)] at hb ⊢
    rw [← some.inj hb, machine.kept_kept state]
  · have hNe : IROperand.symbol next ≠ .symbol a := fun h => hEq (IROperand.symbol.inj h)
    rw [machine.value_write_of_ne hNe, machine.value_write_self (Or.inr ⟨_, rfl⟩)]

theorem value_symbol_after {y : String} (h : machine.value state (.symbol y) = some v) (x : String)
    (w : V) :
    ∃ u, machine.value (machine.write state (.symbol x) w) (.symbol y) = some u := by
  by_cases hEq : IROperand.symbol y = .symbol x
  · rw [hEq, machine.value_write_self (Or.inr ⟨_, rfl⟩)]
    exact ⟨_, rfl⟩
  · rw [machine.value_write_of_ne hEq]
    exact ⟨v, h⟩

/-- **Registers and memory agree**, if `next` and `a` are different symbols. A symbol in a
register is a private one. -/
theorem rotateAddInRegisters_eq (machine : Machine V M) (code : List IRInstruction)
    (state : IRState V M) (hAlias : window.next = window.a → window.a = window.b)
    (hPrivate : machine.resident window.next = false) :
    rotateAddInRegisters machine state window.next window.a window.b =
      machine.execute code state window.fused := by
  unfold rotateAddInRegisters Machine.execute RotateWindow.fused
  cases ha : machine.value state (.symbol window.a) with
  | none => rfl
  | some va =>
    cases hb : machine.value state (.symbol window.b) with
    | none => rfl
    | some vb =>
      dsimp only
      cases hSum : machine.binary "+" 0 va vb with
      | none => rfl
      | some sum =>
        dsimp only
        obtain ⟨u, hu⟩ := value_symbol_after hb window.next sum
        have hKept : machine.kept (.symbol window.next) sum = sum := by
          rw [Machine.kept, hPrivate]
          rfl
        rw [hu, getD_some, value_next_after hAlias hu, getD_some, hKept]

-- ---
-- Four steps
-- ---

theorem Machine.write_next (machine : Machine V M) (state : IRState V M) (dest : IROperand)
    (v : V) : machine.write state.next dest v = (machine.write state dest v).next := by
  cases dest with
  | symbol x =>
    rw [Machine.write, Machine.write]
    split <;> rfl
  | _ => rfl

theorem Machine.write_trace (machine : Machine V M) (state : IRState V M) (dest : IROperand)
    (v : V) : (machine.write state dest v).trace = state.trace := by
  cases dest with
  | symbol x =>
    rw [Machine.write]
    split <;> rfl
  | _ => rfl

theorem step_assign {c : IRInstruction} (hAt : code[state.pc]? = some c) (hOp : c.op = .assign)
    (hValue : machine.value state c.lhs = some v) :
    machine.step code state = .running (machine.write state c.dest (machine.moved c v)).next := by
  rw [step_at hAt, Machine.execute, hOp]
  rw [Machine.compute, hOp]
  rw [hValue]
  rfl

/-- The four instructions of a window deliver whole words: the copy of `b` is no float, and the
sum arrives in `next` and from there, or from its temp, in `b`. -/
def RotateFits (machine : Machine V M) (code : List IRInstruction) (state : IRState V M) : Prop :=
  ∀ (window : RotateWindow) (add assignNext assignA assignB : IRInstruction) (sum : V),
    IsWindow code state.pc window add assignNext assignA assignB →
    machine.compute state add = some sum →
    assignA.isFloat = false ∧ machine.moved assignNext sum = sum ∧
      (assignB.lhs = .temp window.sum → machine.moved assignB sum = sum) ∧
      (assignB.lhs = .symbol window.next →
        machine.moved assignB (machine.kept (.symbol window.next) sum) = sum)

/-- A stretch of four steps, with the places and traces on the way. -/
structure FourSteps (machine : Machine V M) (code : List IRInstruction)
    (state first second third last : IRState V M) : Prop where
  one : machine.step code state = .running first
  two : machine.step code first = .running second
  three : machine.step code second = .running third
  four : machine.step code third = .running last
  pcs : first.pc = state.pc + 1 ∧ second.pc = state.pc + 2 ∧ third.pc = state.pc + 3 ∧
    last.pc = state.pc + 4
  traces : first.trace = state.trace ∧ second.trace = state.trace ∧ third.trace = state.trace ∧
    last.trace = state.trace

/-- **Through a window.** -/
theorem window_steps (hFuses : Fuses old new fused)
    {dead : String → Prop} {e s : IRState V M} (hAgree : AgreeOff dead e s) (hFused : fused s.pc)
    (hWindow : rotateWindowAt old s.pc = some window)
    (hAlias : window.next = window.a → window.a = window.b) (hFits : RotateFits machine old s) :
    (machine.step old s = .stuck s ∧ machine.step new e = .stuck e) ∨
    ∃ s₁ s₂ s₃ s₄ e₁ e₂ e₃ e₄, FourSteps machine old s s₁ s₂ s₃ s₄ ∧
      FourSteps machine new e e₁ e₂ e₃ e₄ ∧
      AgreeOff (fun t => dead t ∨ t = window.sum) e₄ s₄ := by
  obtain ⟨add, assignNext, assignA, assignB, hIs⟩ := rotateWindowAt_spec hWindow
  obtain ⟨window', hWindow', hStart⟩ := hFuses.start s.pc hFused
  rw [hWindow] at hWindow'
  cases hWindow'
  obtain ⟨hOp, hFloat, hPlain, hText, hDest, hLhs, hRhs⟩ := hIs.addIs
  have hWidth : add.floatWidth = 0 := by rw [IRInstruction.floatWidth, hFloat]; rfl
  have hOldStep : machine.step old s = machine.finish s (.temp window.sum)
      (machine.compute s add) := by
    rw [step_at hIs.addAt, Machine.execute, hOp]
    rw [hDest]
  have hCompute : machine.compute s add =
      match machine.value s (.symbol window.a), machine.value s (.symbol window.b) with
      | some va, some vb => machine.binary "+" 0 va vb
      | _, _ => none := by
    rw [Machine.compute, hOp]
    rw [hText, hLhs, hRhs]
    cases machine.value s (.symbol window.a) <;> cases machine.value s (.symbol window.b) <;>
      first | rfl | skip
    dsimp only
    rw [machine.operate_plain hPlain, hWidth]
  have hNewStep : machine.step new e = machine.execute new e window.fused := by
    rw [Machine.step, hAgree.pc, hStart]
  have hValue : ∀ x, machine.value e (.symbol x) = machine.value s (.symbol x) := fun x =>
    hAgree.value (by rintro t ⟨⟩)
  have hStuck : machine.compute s add = none →
      machine.step old s = .stuck s ∧ machine.step new e = .stuck e := by
    intro hNone
    refine ⟨by rw [hOldStep, hNone]; rfl, ?_⟩
    rw [hCompute] at hNone
    rw [hNewStep, Machine.execute, RotateWindow.fused]
    rw [hValue, hValue]
    cases ha : machine.value s (.symbol window.a) with
    | none => rfl
    | some va =>
      cases hb : machine.value s (.symbol window.b) with
      | none => rfl
      | some vb =>
        rw [ha, hb] at hNone
        dsimp only at hNone ⊢
        rw [hNone]
  cases hSum : machine.compute s add with
  | none => exact Or.inl (hStuck hSum)
  | some sum =>
    right
    have hSome : ∃ va vb, machine.value s (.symbol window.a) = some va ∧
        machine.value s (.symbol window.b) = some vb ∧ machine.binary "+" 0 va vb = some sum := by
      rw [hCompute] at hSum
      split at hSum
      · rename_i va vb ha hb
        exact ⟨va, vb, ha, hb, hSum⟩
      · cases hSum
    obtain ⟨va, vb, ha, hb, hAdd⟩ := hSome
    obtain ⟨hFloatA, hMovedNext, hMovedTemp, hMovedB⟩ :=
      hFits window add assignNext assignA assignB sum hIs hSum
    have hOldFirst : machine.step old s = .running (machine.write s (.temp window.sum) sum).next := by
      rw [hOldStep, hSum]
      rfl
    -- the four states of the old function
    let s₁ := machine.write s (.temp window.sum) sum
    let s₂ := machine.write s₁ (.symbol window.next) sum
    have hbs₁ : machine.value s₁ (.symbol window.b) = some vb := hb
    obtain ⟨u, hu⟩ := value_symbol_after hbs₁ window.next sum
    let s₃ := machine.write s₂ (.symbol window.a) u
    let s₄ := machine.write s₃ (.symbol window.b) sum
    have hTemp : s₃.temps window.sum = some sum := by
      have hSymbols : ∀ (state : IRState V M) (x : String) (v : V),
          (machine.write state (.symbol x) v).temps = state.temps := by
        intro state x v
        rw [Machine.write]
        split <;> rfl
      rw [hSymbols, hSymbols]
      exact Function.update_self _ _ _
    have hLast : ∃ w, machine.value s₃ assignB.lhs = some w ∧ machine.moved assignB w = sum := by
      rcases hIs.bIs.2.2 with hFrom | hFrom
      · refine ⟨_, ?_, hMovedB hFrom⟩
        rw [hFrom]
        exact value_next_after hAlias hu
      · refine ⟨sum, ?_, hMovedTemp hFrom⟩
        rw [hFrom]
        exact hTemp
    obtain ⟨w, hw, hMovedLast⟩ := hLast
    have hOld : FourSteps machine old s s₁.next s₂.next.next s₃.next.next.next
        s₄.next.next.next.next := by
      refine ⟨hOldFirst, ?_, ?_, ?_, ?_, ?_⟩
      · have hAt : old[s₁.next.pc]? = some assignNext := hIs.nextAt
        rw [step_assign hAt hIs.nextIs.1 (v := sum), hMovedNext, hIs.nextIs.2.1, Machine.write_next]
        rw [hIs.nextIs.2.2, Machine.value_next]
        exact Function.update_self _ _ _
      · have hPc : s₂.next.next.pc = s.pc + 2 := by
          simp [IRState.next, s₂, s₁]
        have hAt : old[s₂.next.next.pc]? = some assignA := by rw [hPc]; exact hIs.aAt
        rw [step_assign hAt hIs.aIs.1 (v := u), moved_symbol hFloatA hIs.aIs.2.2, id_eq,
          hIs.aIs.2.1, Machine.write_next, Machine.write_next]
        rw [hIs.aIs.2.2, Machine.value_next, Machine.value_next]
        exact hu
      · have hPc : s₃.next.next.next.pc = s.pc + 3 := by
          simp [IRState.next, s₃, s₂, s₁]
        have hAt : old[s₃.next.next.next.pc]? = some assignB := by rw [hPc]; exact hIs.bAt
        rw [step_assign hAt hIs.bIs.1 (v := w), hMovedLast, hIs.bIs.2.1, Machine.write_next,
          Machine.write_next, Machine.write_next]
        exact hw
      · simp [IRState.next, s₄, s₃, s₂, s₁]
      · simp [IRState.next, s₄, s₃, s₂, s₁, Machine.write_trace]
    -- and those of the new one
    let r₁ := machine.write e (.symbol window.next) sum
    let r₂ := machine.write r₁ (.symbol window.a) ((machine.value r₁ (.symbol window.b)).getD vb)
    let r₃ := machine.write r₂ (.symbol window.b) sum
    have hNewFirst : machine.step new e = .running r₃.next := by
      rw [hNewStep, Machine.execute, RotateWindow.fused]
      rw [hValue, hValue, ha, hb]
      dsimp only
      rw [hAdd]
    have hNop : ∀ (k : Nat) (state : IRState V M), 1 ≤ k → k ≤ 3 → state.pc = s.pc + k →
        machine.step new state = .running state.next := by
      intro k state h1 h3 hPc
      obtain ⟨c, hc⟩ := hFuses.inside s.pc k hFused h1 h3
      rw [Machine.step, hPc, hc]
      rfl
    have hR : r₃.pc = s.pc := by
      simp [r₃, r₂, r₁, hAgree.pc]
    have hNew : FourSteps machine new e r₃.next r₃.next.next r₃.next.next.next
        r₃.next.next.next.next := by
      refine ⟨hNewFirst, ?_, ?_, ?_, ?_, ?_⟩
      · exact hNop 1 _ (by omega) (by omega) (by simp only [IRState.next, hR])
      · exact hNop 2 _ (by omega) (by omega) (by simp only [IRState.next, hR])
      · exact hNop 3 _ (by omega) (by omega) (by simp only [IRState.next, hR])
      · simp [IRState.next, hR, hAgree.pc]
      · simp [IRState.next, r₃, r₂, r₁, Machine.write_trace]
    refine ⟨_, _, _, _, _, _, _, _, hOld, hNew, ?_⟩
    have hMore : AgreeOff (fun t => dead t ∨ t = window.sum) e s := hAgree.mono fun t => Or.inl
    have hDead : AgreeOff (fun t => dead t ∨ t = window.sum) e s₁ :=
      hMore.write_dead (t := window.sum) (Or.inr rfl) sum
    have hTwo : AgreeOff (fun t => dead t ∨ t = window.sum) r₁ s₂ := hDead.write _ _
    have hU : machine.value r₁ (.symbol window.b) = some u := by
      rw [hTwo.value (by rintro t ⟨⟩)]
      exact hu
    have hThree : AgreeOff (fun t => dead t ∨ t = window.sum) r₂ s₃ := by
      simp only [r₂, hU, getD_some]
      exact hTwo.write (.symbol window.a) u
    exact (hThree.write _ _).next.next.next.next

-- ---
-- Runs go in step
-- ---

def SumsStayInside (instructions : List IRInstruction) (path : List Nat)
    (state : IRState V M) : Prop :=
  ∀ c t p, instructions[state.pc]? = some c → .temp t ∈ c.reads →
    lastWrite instructions path t = some p → (rotateWindowAt instructions p).isSome = true →
    p < state.pc ∧ state.pc ≤ p + 3

/-- No window has been entered and not left. -/
def OutsideWindows (instructions : List IRInstruction) (pc : Nat) : Prop :=
  ∀ p, (rotateWindowAt instructions p).isSome = true → pc ≤ p ∨ p + 3 < pc

def IsSum (instructions : List IRInstruction) (t : String) : Prop :=
  ∃ p window, rotateWindowAt instructions p = some window ∧ window.sum = t

/-- The runs are at the same place with the same calls behind them, and outside the windows they
agree on all symbols, on memory, and on all temps that are no sums. -/
inductive RotatesInStep (instructions : List IRInstruction) : Outcome V M → Outcome V M → Prop
  | running {e s : IRState V M} : e.pc = s.pc → e.trace = s.trace →
    (OutsideWindows instructions s.pc → AgreeOff (IsSum instructions) e s) →
    RotatesInStep instructions (.running e) (.running s)
  | returned {value : Option V} {e s : IRState V M} : AgreeOff (IsSum instructions) e s →
    RotatesInStep instructions (.returned value e) (.returned value s)
  | stuck {e s : IRState V M} : RotatesInStep instructions (.stuck e) (.stuck s)

section Simulation

variable {old : List IRInstruction}

def FusedSum (old : List IRInstruction) (fused : Nat → Prop) (path : List Nat) (t : String) :
    Prop :=
  ∃ p, lastWrite old path t = some p ∧ fused p

theorem IsWindow.writesTempAt {add assignNext assignA assignB : IRInstruction}
    (h : IsWindow old p window add assignNext assignA assignB) (t : String) :
    (writesTempAt old t p = true ↔ t = window.sum) ∧ writesTempAt old t (p + 1) = false ∧
      writesTempAt old t (p + 2) = false ∧ writesTempAt old t (p + 3) = false := by
  have hAssign : ∀ {q : Nat} {c : IRInstruction} {x : String}, old[q]? = some c → c.op = .assign →
      c.dest = .symbol x → IR.writesTempAt old t q = false := by
    intro q c x hc hOp hDest
    rw [Bool.eq_false_iff, ne_eq, writesTempAt_iff hc, IRInstruction.writes, hOp, hDest]
    simp [IROpcode.writesDestination]
  refine ⟨?_, hAssign h.nextAt h.nextIs.1 h.nextIs.2.1, hAssign h.aAt h.aIs.1 h.aIs.2.1,
    hAssign h.bAt h.bIs.1 h.bIs.2.1⟩
  rw [writesTempAt_iff h.addAt, IRInstruction.writes, h.addIs.1, h.addIs.2.2.2.2.1]
  simp [IROpcode.writesDestination]

theorem window_apart {q : Nat} {window' : RotateWindow} (hp : rotateWindowAt old p = some window)
    (hq : rotateWindowAt old q = some window') :
    q ≤ p ∨ p + 3 < q := by
  obtain ⟨_, assignNext, assignA, assignB, hP⟩ := rotateWindowAt_spec hp
  obtain ⟨add, _, _, _, hQ⟩ := rotateWindowAt_spec hq
  have hNot : ∀ {c : IRInstruction}, old[q]? = some c → c.op ≠ .assign := by
    intro c hc hOp
    rw [hQ.addAt] at hc
    cases hc
    rw [hQ.addIs.1] at hOp
    cases hOp
  by_contra hNear
  have hCases : q = p + 1 ∨ q = p + 2 ∨ q = p + 3 := by omega
  rcases hCases with rfl | rfl | rfl
  · exact hNot hP.nextAt hP.nextIs.1
  · exact hNot hP.aAt hP.aIs.1
  · exact hNot hP.bAt hP.bIs.1

theorem Fuses.labelIndex_eq (h : Fuses old new fused) (name : String) :
    labelIndex new name = labelIndex old name := by
  refine labelIndex_congr ?_ name
  intro name q
  by_cases hNear : ∃ p, fused p ∧ p ≤ q ∧ q ≤ p + 3
  · obtain ⟨p, hp, hLe, hGe⟩ := hNear
    obtain ⟨window, hWindow, hAt⟩ := h.start p hp
    obtain ⟨add, assignNext, assignA, assignB, hIs⟩ := rotateWindowAt_spec hWindow
    have hOldNot : ∀ {c : IRInstruction}, old[q]? = some c → c.op = .binary ∨ c.op = .assign →
        old[q]?.map (fun i => i.op == .label && i.text == some name) = some false := by
      intro c hc hOp
      rw [hc, map_some]
      rcases hOp with hOp | hOp <;> rw [hOp] <;> rfl
    have hNewNot : new[q]?.map (fun i => i.op == .label && i.text == some name) = some false := by
      rcases Nat.eq_or_lt_of_le hLe with rfl | hLt
      · rw [hAt]
        rfl
      · obtain ⟨c, hc⟩ := h.inside p (q - p) hp (by omega) (by omega)
        rw [show q = p + (q - p) by omega, hc]
        rfl
    rw [hNewNot]
    have hCases : q = p ∨ q = p + 1 ∨ q = p + 2 ∨ q = p + 3 := by omega
    rcases hCases with rfl | rfl | rfl | rfl
    · exact (hOldNot hIs.addAt (Or.inl hIs.addIs.1)).symm
    · exact (hOldNot hIs.nextAt (Or.inr hIs.nextIs.1)).symm
    · exact (hOldNot hIs.aAt (Or.inr hIs.aIs.1)).symm
    · exact (hOldNot hIs.bAt (Or.inr hIs.bIs.1)).symm
  · rw [h.elsewhere q]
    intro p hp
    by_contra hIn
    exact hNear ⟨p, hp, by omega, by omega⟩

theorem FusedSum.isSum (h : Fuses old new fused) {path : List Nat} {t : String}
    (hSum : FusedSum old fused path t) : IsSum old t := by
  obtain ⟨p, hLast, hp⟩ := hSum
  obtain ⟨window, hWindow, -⟩ := h.start p hp
  obtain ⟨add, assignNext, assignA, assignB, hIs⟩ := rotateWindowAt_spec hWindow
  exact ⟨p, window, hWindow, (((hIs.writesTempAt t).1.mp (lastWrite_writes hLast))).symm⟩

theorem outside_step (h : Fuses old new fused) {path : List Nat} {e s : IRState V M}
    (hAgree : AgreeOff (FusedSum old fused path) e s)
    (hOutside : ∀ p, fused p → s.pc ≤ p ∨ p + 3 < s.pc) (hNot : ¬ fused s.pc)
    (hInside : SumsStayInside old path s) :
    Outcome.AgreeOff (FusedSum old fused (s.pc :: path)) (machine.step new e)
      (machine.step old s) := by
  have hSame : new[s.pc]? = old[s.pc]? := by
    refine h.elsewhere s.pc ?_
    intro p hp
    rcases hOutside p hp with hLe | hLt
    · refine Or.inl (Nat.lt_of_le_of_ne hLe ?_)
      rintro rfl
      exact hNot hp
    · exact Or.inr hLt
  have hGrow : ∀ t, FusedSum old fused path t → writesTempAt old t s.pc = false →
      FusedSum old fused (s.pc :: path) t := by
    rintro t ⟨p, hLast, hp⟩ hWrites
    refine ⟨p, ?_, hp⟩
    rw [lastWrite_cons, hWrites]
    exact hLast
  cases hc : old[s.pc]? with
  | none =>
    rw [Machine.step, hAgree.pc, hSame, Machine.step, hc]
    refine .returned (hAgree.mono ?_)
    intro t hSum
    refine hGrow t hSum ?_
    rw [writesTempAt, hc]
    rfl
  | some c =>
    rw [step_at hc, Machine.step, hAgree.pc, hSame, hc]
    dsimp only
    rw [execute_congr machine h.labelIndex_eq]
    refine execute_agree_shrinks hAgree ?_ ?_
    · rintro operand hMem t rfl ⟨p, hLast, hp⟩
      obtain ⟨window, hWindow, -⟩ := h.start p hp
      have hNear := hInside c t p hc hMem hLast (by rw [hWindow]; rfl)
      rcases hOutside p hp with hLe | hLt <;> omega
    · intro t hSum hWrites
      refine hGrow t hSum ?_
      rw [Bool.eq_false_iff, ne_eq, writesTempAt_iff hc]
      exact hWrites

theorem outside_next {pc : Nat} (hOutside : ∀ q, fused q → pc ≤ q ∨ q + 3 < pc)
    (h : Fuses old new fused) (hp : fused pc) (hq : fused p) : pc + 4 ≤ p ∨ p + 3 < pc + 4 := by
  obtain ⟨window, hWindow, -⟩ := h.start pc hp
  obtain ⟨window', hWindow', -⟩ := h.start p hq
  rcases window_apart hWindow hWindow' with hLe | hLt
  · rcases hOutside p hq with hGe | hBehind <;> omega
  · omega

theorem rotates_run (h : Fuses old new fused)
    (hAlias : ∀ p window, rotateWindowAt old p = some window →
      window.next = window.a → window.a = window.b) {start : IRState V M}
    (hInside : ∀ path state, machine.Reaches old start path state → SumsStayInside old path state)
    (hFits : ∀ path state, machine.Reaches old start path state → RotateFits machine old state)
    (n : Nat) :
    ∀ {path : List Nat} {e s : IRState V M}, machine.Reaches old start path s →
      (∀ p, fused p → s.pc ≤ p ∨ p + 3 < s.pc) → AgreeOff (FusedSum old fused path) e s →
      RotatesInStep old (machine.run new n (.running e)) (machine.run old n (.running s)) := by
  induction n using Nat.strong_induction_on with
  | _ n ih =>
    intro path e s hReach hOutside hAgree
    have hSums : ∀ {path : List Nat} {e s : IRState V M},
        AgreeOff (FusedSum old fused path) e s → AgreeOff (IsSum old) e s :=
      fun hSame => hSame.mono fun t hSum => hSum.isSum h
    by_cases hFused : fused s.pc
    · obtain ⟨window, hWindow, -⟩ := h.start s.pc hFused
      rcases window_steps h hAgree hFused hWindow (hAlias _ _ hWindow) (hFits path s hReach) with
        ⟨hOld, hNew⟩ | ⟨s₁, s₂, s₃, s₄, e₁, e₂, e₃, e₄, hOld, hNew, hLast⟩
      · cases n with
        | zero => exact .running hAgree.pc hAgree.trace fun _ => hSums hAgree
        | succ n =>
          rw [Machine.run, Machine.run, hOld, hNew]
          cases n <;> exact .stuck
      · -- inside the window there is nothing to say about the symbols
        have hWithin : ∀ k, 1 ≤ k → k ≤ 3 → ¬ OutsideWindows old (s.pc + k) := by
          intro k h1 h3 hOut
          rcases hOut s.pc (by rw [hWindow]; rfl) with hLe | hLt <;> omega
        obtain ⟨hOne, hTwo, hThree, hFour⟩ := hOld.pcs
        obtain ⟨hOne', hTwo', hThree', hFour'⟩ := hNew.pcs
        obtain ⟨tOne, tTwo, tThree, tFour⟩ := hOld.traces
        obtain ⟨tOne', tTwo', tThree', tFour'⟩ := hNew.traces
        rcases n with _ | _ | _ | _ | m
        · exact .running hAgree.pc hAgree.trace fun _ => hSums hAgree
        · simp only [Machine.run, hOld.one, hNew.one]
          refine .running (by rw [hOne, hOne', hAgree.pc]) (by rw [tOne, tOne', hAgree.trace]) ?_
          intro hOut
          rw [hOne] at hOut
          exact absurd hOut (hWithin 1 (by omega) (by omega))
        · simp only [Machine.run, hOld.one, hNew.one, hOld.two, hNew.two]
          refine .running (by rw [hTwo, hTwo', hAgree.pc]) (by rw [tTwo, tTwo', hAgree.trace]) ?_
          intro hOut
          rw [hTwo] at hOut
          exact absurd hOut (hWithin 2 (by omega) (by omega))
        · simp only [Machine.run, hOld.one, hNew.one, hOld.two, hNew.two, hOld.three, hNew.three]
          refine .running (by rw [hThree, hThree', hAgree.pc])
            (by rw [tThree, tThree', hAgree.trace]) ?_
          intro hOut
          rw [hThree] at hOut
          exact absurd hOut (hWithin 3 (by omega) (by omega))
        · simp only [Machine.run, hOld.one, hNew.one, hOld.two, hNew.two, hOld.three, hNew.three,
            hOld.four, hNew.four]
          refine ih m (by omega)
            ((((hReach.step hOld.one).step hOld.two).step hOld.three).step hOld.four) ?_ ?_
          · intro p hp
            rw [hFour]
            exact outside_next hOutside h hFused hp
          · obtain ⟨add, assignNext, assignA, assignB, hIs⟩ := rotateWindowAt_spec hWindow
            refine hLast.mono ?_
            intro t hDead
            obtain ⟨hSum, hNone₁, hNone₂, hNone₃⟩ := hIs.writesTempAt t
            have hPast : lastWrite old (s₃.pc :: s₂.pc :: s₁.pc :: s.pc :: path) t =
                lastWrite old (s.pc :: path) t := by
              simp [lastWrite_cons, hOne, hTwo, hThree, hNone₁, hNone₂, hNone₃]
            unfold FusedSum
            rw [hPast, lastWrite_cons]
            by_cases hEq : t = window.sum
            · exact ⟨s.pc, by rw [if_pos (hSum.mpr hEq)], hFused⟩
            · obtain ⟨p, hPath, hp⟩ := hDead.resolve_right hEq
              exact ⟨p, by rw [if_neg fun hIs => hEq (hSum.mp hIs), hPath], hp⟩
    · cases n with
      | zero => exact .running hAgree.pc hAgree.trace fun _ => hSums hAgree
      | succ n =>
        rw [Machine.run, Machine.run]
        have hOut : Outcome.AgreeOff (FusedSum old fused (s.pc :: path)) (machine.step new e)
            (machine.step old s) := outside_step h hAgree hOutside hFused (hInside path s hReach)
        generalize machine.step new e = outcome at hOut
        generalize hStep : machine.step old s = outcome' at hOut
        cases hOut with
        | stuck => cases n <;> exact .stuck
        | returned hEnd => cases n <;> exact .returned (hSums hEnd)
        | @running e' s' hNext =>
          refine ih n (by omega) (hReach.step hStep) ?_ hNext
          -- the next place is not inside a window either
          intro p hp
          obtain ⟨window, hWindow, -⟩ := h.start p hp
          obtain ⟨add, assignNext, assignA, assignB, hIs⟩ := rotateWindowAt_spec hWindow
          by_contra hIn
          obtain ⟨c, hc, hExec⟩ := step_running hStep
          rcases execute_pc hExec with hPc | ⟨-, name, -, hIndex⟩
          · rcases hOutside p hp with hLe | hLt
            · have hNe : s.pc ≠ p := by
                rintro rfl
                exact hFused hp
              omega
            · omega
          · obtain ⟨l, hl, hOp⟩ := getElem?_labelIndex hIndex
            have hCases : s'.pc = p + 1 ∨ s'.pc = p + 2 ∨ s'.pc = p + 3 := by omega
            have hNot : ∀ {q : Nat} {d : IRInstruction}, old[q]? = some d → d.op = .assign →
                s'.pc ≠ q := by
              rintro q d hd hAssign rfl
              rw [hl] at hd
              cases hd
              rw [hOp] at hAssign
              cases hAssign
            rcases hCases with hq | hq | hq
            · exact hNot hIs.nextAt hIs.nextIs.1 hq
            · exact hNot hIs.aAt hIs.aIs.1 hq
            · exact hNot hIs.bAt hIs.bIs.1 hq

end Simulation

/-- **Fusing keeps the values.** If `next` and `a` are different symbols in every window, then on
a run that reads no sum behind its window and cuts none off on its way, the fused function goes in
step with the old one, and the instruction does the same in registers as in memory. -/
theorem rotateAdd_in_step (machine : Machine V M) (function : IRFunction) {start : IRState V M}
    (hStart : start.pc = 0)
    (hAlias : ∀ p window, rotateWindowAt function.instructions p = some window →
      window.next = window.a → window.a = window.b)
    (hInside : ∀ path state, machine.Reaches function.instructions start path state →
      SumsStayInside function.instructions path state)
    (hFits : ∀ path state, machine.Reaches function.instructions start path state →
      RotateFits machine function.instructions state) :
    (∀ n, RotatesInStep function.instructions
      (machine.run (irFuseRotateAddPass function).instructions n (.running start))
      (machine.run function.instructions n (.running start))) ∧
    ∀ p window, rotateWindowAt function.instructions p = some window →
      machine.resident window.next = false → ∀ code state,
      rotateAddInRegisters machine state window.next window.a window.b =
        machine.execute code state window.fused := by
  refine ⟨?_, ?_⟩
  · obtain ⟨fused, hFuses⟩ := irFuseRotateAddPass_fuses function
    intro n
    refine rotates_run hFuses hAlias hInside hFits n .start ?_ ⟨rfl, rfl, rfl, rfl, fun _ _ => rfl⟩
    intro p _
    rw [hStart]
    exact Or.inl (Nat.zero_le p)
  · intro p window hWindow hPrivate code state
    exact rotateAddInRegisters_eq machine code state (hAlias p window hWindow) hPrivate

/-- A window between `a = 1; b = 2` and a return. -/
def rotateOnce (next : String) (returned : IROperand) : IRFunction :=
  { name := "f", parameterNames := []
    instructions :=
      [{ op := .assign, dest := .symbol "a", lhs := .int 1 },
       { op := .assign, dest := .symbol "b", lhs := .int 2 },
       { op := .binary, text := some "+", dest := .temp "t", lhs := .symbol "a",
         rhs := .symbol "b" },
       { op := .assign, dest := .symbol next, lhs := .temp "t" },
       { op := .assign, dest := .symbol "a", lhs := .symbol "b" },
       { op := .assign, dest := .symbol "b", lhs := .symbol next },
       { op := .return_, lhs := returned }] }

theorem rotateOnce_window
    (h : rotateWindowAt (rotateOnce "next" (.symbol "b")).instructions p = some window) :
    p = 2 ∧ window = ⟨"t", "next", "a", "b"⟩ := by
  match p with
  | 2 => exact ⟨rfl, (some.inj h).symm⟩
  | 0 | 1 | 3 | 4 | 5 | 6 => cases h
  | p + 7 => cases h

theorem rotateAdd_in_step_once :
    (irFuseRotateAddPass (rotateOnce "next" (.symbol "b"))).instructions[2]? =
        some (RotateWindow.fused ⟨"t", "next", "a", "b"⟩) ∧
      ∀ n, RotatesInStep (rotateOnce "next" (.symbol "b")).instructions
        ((wordMachine fun _ => false).run
          (irFuseRotateAddPass (rotateOnce "next" (.symbol "b"))).instructions n
          (.running wordStart))
        ((wordMachine fun _ => false).run (rotateOnce "next" (.symbol "b")).instructions n
          (.running wordStart)) := by
  refine ⟨by decide, ?_⟩
  refine (rotateAdd_in_step _ (rotateOnce "next" (.symbol "b")) rfl ?_ ?_ ?_).1
  · intro p window hWindow hEq
    rw [(rotateOnce_window hWindow).2] at hEq
    exact absurd hEq (by decide)
  · intro path state _ c t p hc hRead _ hIs
    obtain ⟨window, hWindow⟩ := isSome_iff_exists.mp hIs
    obtain ⟨rfl, -⟩ := rotateOnce_window hWindow
    -- only the copy into `next` reads a temp
    match hPc : state.pc with
    | 3 => decide
    | 0 | 1 | 2 | 4 | 5 | 6 =>
      rw [hPc] at hc
      cases hc
      simp [IRInstruction.reads] at hRead
    | k + 7 =>
      rw [hPc] at hc
      cases hc
  · intro path state _ window add assignNext assignA assignB sum hIs _
    refine ⟨?_, wordMachine_moved _ _ _, fun _ => wordMachine_moved _ _ _,
      fun _ => (wordMachine_moved _ _ _).trans (wordMachine_kept _ _ _)⟩
    have hA := hIs.aAt
    match hPc : state.pc with
    | 0 | 1 | 2 | 3 | 4 =>
      rw [hPc] at hA
      cases hA
      rfl
    | k + 5 =>
      rw [hPc] at hA
      cases hA

/-- **The fused function loses the sum**: returning it is stuck. And if `next` is `a`, the
last copy does not copy the sum, but the fused instruction does. -/
theorem rotateAdd_loses_sum :
    ((wordMachine fun _ => false).run (rotateOnce "next" (.temp "t")).instructions 10
        (.running wordStart)).value = some 3 ∧
      ((wordMachine fun _ => false).run
        (irFuseRotateAddPass (rotateOnce "next" (.temp "t"))).instructions 10
        (.running wordStart)).value = none ∧
      ((wordMachine fun _ => false).run (rotateOnce "a" (.symbol "b")).instructions 10
        (.running wordStart)).value = some 2 ∧
      ((wordMachine fun _ => false).run
        (irFuseRotateAddPass (rotateOnce "a" (.symbol "b"))).instructions 10
        (.running wordStart)).value = some 3 :=
  ⟨by decide, by decide, by decide, by decide⟩

end Mettle.IR
