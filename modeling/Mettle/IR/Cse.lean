import Mathlib.Tactic.IntervalCases
import Mettle.Lib.Loops
import Mettle.IR.Semantics

/-!
# Mettle — common-subexpression elimination

The model of `ir_common_subexpression_elimination_pass`: one walk over the instructions
with a map of available expressions, which rewrites an instruction whose expression is in
the map to a copy of the recorded destination. The map forgets an expression when the
optimizer's own classifiers say that one of its names is written, and everything at
labels, jumps, calls and stores.

The classifiers miss writes: an instruction whose destination is one of its operands is
recorded like any other, the rotate instruction writes its two operands, the min/max
kernel writes its first argument, and the memory kernels can change a symbol that lives in
memory. `CseSafe` says that no replaced instruction depends on such a write. The pass also
takes the recorded destination for the value that was computed, which it is not where the
store truncates: `ResultsFit` says of the states of a run that nothing is lost there.
-/

namespace Mettle.IR

open Mettle.Lib

/-! ## The pass -/

/-- The kinds of expressions that are remembered. -/
inductive IRExpressionKind
  | binary
  | unary
  | cast
  | addressOf
  deriving DecidableEq

/-- A computed expression and the operand that has it. -/
structure IRExpressionEntry where
  kind : IRExpressionKind
  opText : String
  isFloat : Bool
  lhs : IROperand
  rhs : IROperand
  value : IROperand
  deriving DecidableEq

/-- The instructions whose result is remembered. -/
def irInstructionIsCseCandidate (instruction : IRInstruction) : Bool :=
  irInstructionWritesDestination instruction &&
    match instruction.op with
    | .binary => instruction.text.isSome
    | .unary =>
      match instruction.text with
      | none => false
      | some text => text != "*" && text != "&"
    | .cast => instruction.text.isSome
    | .addressOf =>
      match instruction.lhs with
      | .symbol _ => true
      | _ => false
    | _ => false

/-- The instruction computes the expression again. -/
def irExpressionEntryMatchesInstruction (entry : IRExpressionEntry)
    (instruction : IRInstruction) : Bool :=
  match entry.kind with
  | .binary =>
    instruction.op == .binary && instruction.text == some entry.opText &&
      entry.isFloat == instruction.isFloat &&
      ((irOperandEquals entry.lhs instruction.lhs && irOperandEquals entry.rhs instruction.rhs) ||
        (irBinaryOpIsCommutative entry.opText &&
          irOperandEquals entry.lhs instruction.rhs && irOperandEquals entry.rhs instruction.lhs))
  | .unary =>
    instruction.op == .unary && instruction.text == some entry.opText &&
      entry.isFloat == instruction.isFloat && irOperandEquals entry.lhs instruction.lhs
  | .cast =>
    instruction.op == .cast && instruction.text == some entry.opText &&
      entry.isFloat == instruction.isFloat && irOperandEquals entry.lhs instruction.lhs
  | .addressOf => instruction.op == .addressOf && irOperandEquals entry.lhs instruction.lhs

/-- The operand that has the result already. -/
def irExpressionMapLookup (map : List IRExpressionEntry) (instruction : IRInstruction) :
    Option IROperand :=
  (map.find? fun entry => irExpressionEntryMatchesInstruction entry instruction).map
    IRExpressionEntry.value

def irExpressionEntryOf (instruction : IRInstruction) : IRExpressionEntry :=
  match instruction.op with
  | .binary =>
    { kind := .binary, opText := instruction.text.getD "", isFloat := instruction.isFloat
      lhs := instruction.lhs, rhs := instruction.rhs, value := instruction.dest }
  | .unary =>
    { kind := .unary, opText := instruction.text.getD "", isFloat := instruction.isFloat
      lhs := instruction.lhs, rhs := .none, value := instruction.dest }
  | .cast =>
    { kind := .cast, opText := instruction.text.getD "", isFloat := instruction.isFloat
      lhs := instruction.lhs, rhs := .none, value := instruction.dest }
  | _ =>
    { kind := .addressOf, opText := "", isFloat := false
      lhs := instruction.lhs, rhs := .none, value := instruction.dest }

/-- Remembers a result. -/
def irExpressionMapStoreValueForInstruction (map : List IRExpressionEntry)
    (instruction : IRInstruction) : List IRExpressionEntry :=
  map ++ [irExpressionEntryOf instruction]

/-- The expression or its result is the operand. -/
def irExpressionEntryUsesNamed (entry : IRExpressionEntry) (name : IROperand) : Bool :=
  entry.lhs == name || entry.rhs == name || entry.value == name

/-- `name` is the temp or the symbol with its kind. -/
def irExpressionMapInvalidateNamed (map : List IRExpressionEntry) (name : IROperand) :
    List IRExpressionEntry :=
  map.filter fun entry => !irExpressionEntryUsesNamed entry name

def IROpcode.clearsExpressions : IROpcode → Bool
  | .store | .call | .callIndirect | .inlineAsm | .jump | .branchZero | .branchEq
  | .return_ => true
  | _ => false

def cseInvalidate (map : List IRExpressionEntry) (instruction : IRInstruction) :
    List IRExpressionEntry :=
  let map :=
    if irInstructionWritesTemp instruction then
      irExpressionMapInvalidateNamed map instruction.dest
    else map
  if irInstructionWritesSymbol instruction then
    irExpressionMapInvalidateNamed map instruction.dest
  else map

def cseReplace (map : List IRExpressionEntry) (instruction : IRInstruction) :
    List IRExpressionEntry × IRInstruction :=
  if irInstructionIsCseCandidate instruction then
    match irExpressionMapLookup map instruction with
    | some existing => (map, irRewriteToAssignOperand instruction existing)
    | none => (irExpressionMapStoreValueForInstruction map instruction, instruction)
  else (map, instruction)

def cseStep (map : List IRExpressionEntry) (instruction : IRInstruction) :
    List IRExpressionEntry × IRInstruction :=
  if instruction.op = .label then ([], instruction)
  else
    -- the destination is killed before the lookup, so before the new entry is recorded
    let (map, instruction) := cseReplace (cseInvalidate map instruction) instruction
    (if instruction.op.clearsExpressions then [] else map, instruction)

/-- `ir_common_subexpression_elimination_pass`: the rewritten function and whether it
changed. -/
def irCommonSubexpressionEliminationPass (function : IRFunction) : IRFunction × Bool :=
  let instructions := mapAccum cseStep [] function.instructions
  ({ function with instructions }, instructions != function.instructions)

/-! ## When a replacement is sound -/

def notices (instruction : IRInstruction) (entry : IRExpressionEntry) : Bool :=
  (irInstructionWritesTemp instruction || irInstructionWritesSymbol instruction) &&
    irExpressionEntryUsesNamed entry instruction.dest

/-- The expression of instruction `i` is still in the map in front of `j`: between them the
pass neither clears the map nor takes notice of a write. -/
structure CseAvailable (instructions : List IRInstruction) (i j : Nat) (a : IRInstruction) :
    Prop where
  lt : i < j
  first : instructions[i]? = some a
  candidate : irInstructionIsCseCandidate a = true
  between : ∀ k c, i < k → k < j → instructions[k]? = some c →
    c.op ≠ .label ∧ c.op.clearsExpressions = false ∧ notices c (irExpressionEntryOf a) = false

/-- The expression of instruction `i` is what the pass can find for instruction `j`. -/
structure CseReaches (instructions : List IRInstruction) (i j : Nat) (a b : IRInstruction) :
    Prop extends CseAvailable instructions i j a where
  second : instructions[j]? = some b
  candidate_second : irInstructionIsCseCandidate b = true
  same : irExpressionEntryMatchesInstruction (irExpressionEntryOf a) b = true
  last : notices b (irExpressionEntryOf a) = false

/-- Instruction `i` still describes its destination at `j`. -/
structure Undisturbed (resident : String → Bool) (instructions : List IRInstruction) (i j : Nat)
    (a : IRInstruction) : Prop where
  named : (∃ name, a.dest = .temp name) ∨ ∃ name, a.dest = .symbol name
  -- the destination is not one of the operands
  lhs_ne : a.lhs ≠ a.dest
  rhs_ne : a.rhs ≠ a.dest
  keeps : ∀ k c, i < k → k < j → instructions[k]? = some c →
    Keeps resident c a.lhs ∧ Keeps resident c a.rhs ∧ Keeps resident c a.dest

/-- Only the `+` of an instruction with its expression puts strings together. -/
def IRInstruction.concatenates (instruction : IRInstruction) : Bool :=
  instruction.astRef && instruction.text == some "+"

/-- The two instructions compute the same value from the same operand values: one float
width, literal operands with the same bits, and both or neither put strings together, whose
order matters. -/
def SameExpression (a b : IRInstruction) : Prop :=
  a.floatWidth = b.floatWidth ∧ a.concatenates = b.concatenates ∧
    ((a.lhs = b.lhs ∧ (a.op = .binary → a.rhs = b.rhs)) ∨
      (a.op = .binary ∧ irBinaryOpIsCommutative (a.text.getD "") = true ∧
        a.concatenates = false ∧ a.lhs = b.rhs ∧ a.rhs = b.lhs))

instance (a b : IRInstruction) : Decidable (SameExpression a b) :=
  inferInstanceAs (Decidable (_ ∧ _ ∧ (_ ∨ _)))

/-- No instruction is replaced through an entry that no longer describes its destination. -/
def CseSafe (resident : String → Bool) (instructions : List IRInstruction) : Prop :=
  ∀ i j a b, CseReaches instructions i j a b →
    Undisturbed resident instructions i j a ∧ SameExpression a b

/-- The state loses no part of a result that is used again: the first instruction's
destination keeps what it computes, and the second one's destination gets the same by a copy
as from the expression. -/
def ResultsFit {V M : Type} (machine : Machine V M) (instructions : List IRInstruction)
    (state : IRState V M) : Prop :=
  ∀ i j a b v, CseReaches instructions i j a b →
    (state.pc = i → machine.compute state a = some v → machine.kept a.dest v = v) ∧
    (state.pc = j → machine.compute state b = some v →
      machine.moved { op := .assign, dest := b.dest, lhs := a.dest } v = v)

/-! ## The map in front of an instruction -/

/-- The map in front of instruction `p`. -/
def cseMapAt (instructions : List IRInstruction) (p : Nat) : List IRExpressionEntry :=
  stateAt (fun map instruction => (cseStep map instruction).1) [] instructions p

theorem getElem?_cse (function : IRFunction) (p : Nat) :
    (irCommonSubexpressionEliminationPass function).1.instructions[p]? =
      function.instructions[p]?.map fun b => (cseStep (cseMapAt function.instructions p) b).2 :=
  getElem?_mapAccum cseStep [] function.instructions p

variable {map : List IRExpressionEntry} {entry : IRExpressionEntry}

theorem mem_irExpressionMapInvalidateNamed {name : IROperand} :
    entry ∈ irExpressionMapInvalidateNamed map name ↔
      entry ∈ map ∧ irExpressionEntryUsesNamed entry name = false := by
  rw [irExpressionMapInvalidateNamed, List.mem_filter, Bool.not_eq_true']

theorem mem_cseInvalidate {instruction : IRInstruction}
    (h : entry ∈ cseInvalidate map instruction) :
    entry ∈ map ∧ notices instruction entry = false := by
  unfold cseInvalidate notices at *
  by_cases hTemp : irInstructionWritesTemp instruction = true <;>
    by_cases hSym : irInstructionWritesSymbol instruction = true <;>
    simp_all [mem_irExpressionMapInvalidateNamed]

variable {b : IRInstruction}

theorem candidate_op (h : irInstructionIsCseCandidate b = true) :
    b.op = .binary ∨ b.op = .unary ∨ b.op = .cast ∨ b.op = .addressOf := by
  unfold irInstructionIsCseCandidate at h
  cases hOp : b.op <;> rw [hOp] at h <;> simp at h <;> simp

theorem cseReplace_cases (map : List IRExpressionEntry) (b : IRInstruction) :
    cseReplace map b = (map, b) ∨ (irInstructionIsCseCandidate b = true ∧ ∃ entry ∈ map,
        irExpressionEntryMatchesInstruction entry b = true ∧
        cseReplace map b = (map, irRewriteToAssignOperand b entry.value)) ∨
      (irInstructionIsCseCandidate b = true ∧
        cseReplace map b = (map ++ [irExpressionEntryOf b], b)) := by
  unfold cseReplace
  split
  · rename_i hCand
    right
    cases hFind : map.find? (fun e => irExpressionEntryMatchesInstruction e b) with
    | none =>
      have hLookup : irExpressionMapLookup map b = none := by
        rw [irExpressionMapLookup, hFind]
        rfl
      rw [hLookup]
      exact Or.inr ⟨hCand, rfl⟩
    | some entry =>
      have hLookup : irExpressionMapLookup map b = some entry.value := by
        rw [irExpressionMapLookup, hFind]
        rfl
      rw [hLookup]
      have hMatch := List.find?_some hFind
      exact Or.inl ⟨hCand, entry, List.mem_of_find?_eq_some hFind, hMatch, rfl⟩
  · exact Or.inl rfl

theorem cseStep_instruction (map : List IRExpressionEntry) (b : IRInstruction) :
    (cseStep map b).2 = b ∨ (irInstructionIsCseCandidate b = true ∧ ∃ entry ∈ cseInvalidate map b,
        irExpressionEntryMatchesInstruction entry b = true ∧
        (cseStep map b).2 = irRewriteToAssignOperand b entry.value) := by
  unfold cseStep
  split
  · exact Or.inl rfl
  · rcases cseReplace_cases (cseInvalidate map b) b with h | ⟨hCand, entry, hMem, hMatch, h⟩ | ⟨-, h⟩
    · rw [h]
      exact Or.inl rfl
    · rw [h]
      exact Or.inr ⟨hCand, entry, hMem, hMatch, rfl⟩
    · rw [h]
      exact Or.inl rfl

theorem mem_cseStep (h : entry ∈ (cseStep map b).1) :
    (entry ∈ map ∧ b.op ≠ .label ∧ b.op.clearsExpressions = false ∧ notices b entry = false) ∨
      (irInstructionIsCseCandidate b = true ∧ entry = irExpressionEntryOf b) := by
  unfold cseStep at h
  split at h
  · cases h
  · rename_i hLabel
    rcases cseReplace_cases (cseInvalidate map b) b with hr | ⟨hCand, e, -, -, hr⟩ | ⟨hCand, hr⟩
    · rw [hr] at h
      dsimp only at h
      split at h
      · cases h
      · rename_i hClear
        obtain ⟨hMem, hNotice⟩ := mem_cseInvalidate h
        exact Or.inl ⟨hMem, hLabel, by simpa using hClear, hNotice⟩
    · rw [hr] at h
      obtain ⟨hMem, hNotice⟩ := mem_cseInvalidate (h : entry ∈ cseInvalidate map b)
      refine Or.inl ⟨hMem, hLabel, ?_, hNotice⟩
      rcases candidate_op hCand with hOp | hOp | hOp | hOp <;> rw [hOp] <;> rfl
    · rw [hr] at h
      dsimp only at h
      have hClear : b.op.clearsExpressions = false := by
        rcases candidate_op hCand with hOp | hOp | hOp | hOp <;> rw [hOp] <;> rfl
      rw [hClear] at h
      rcases List.mem_append.mp h with hOld | hNew
      · obtain ⟨hMem, hNotice⟩ := mem_cseInvalidate hOld
        exact Or.inl ⟨hMem, hLabel, hClear, hNotice⟩
      · exact Or.inr ⟨hCand, List.mem_singleton.mp hNew⟩

variable {code : List IRInstruction}

/-- **The map.** -/
theorem cseMapAt_available {p : Nat} (hp : p ≤ code.length) (hMem : entry ∈ cseMapAt code p) :
    ∃ i a, CseAvailable code i p a ∧ entry = irExpressionEntryOf a := by
  have hAll : ∀ entry ∈ cseMapAt code p,
      ∃ i a, CseAvailable code i p a ∧ entry = irExpressionEntryOf a := by
    refine stateAt_invariant (fun p map => ∀ entry ∈ map,
      ∃ i a, CseAvailable code i p a ∧ entry = irExpressionEntryOf a) ?_ ?_ hp
    · intro e he
      cases he
    · intro q b map hGet ih e he
      rcases mem_cseStep he with ⟨hOld, hLabel, hClear, hNotice⟩ | ⟨hCand, rfl⟩
      · obtain ⟨i, a, hAvail, rfl⟩ := ih e hOld
        refine ⟨i, a, ⟨Nat.lt_succ_of_lt hAvail.lt, hAvail.first, hAvail.candidate, ?_⟩, rfl⟩
        intro k c hik hkq hc
        rcases Nat.lt_succ_iff_lt_or_eq.mp hkq with hLt | rfl
        · exact hAvail.between k c hik hLt hc
        · rw [hGet] at hc
          cases hc
          exact ⟨hLabel, hClear, hNotice⟩
      · refine ⟨q, b, ⟨Nat.lt_succ_self q, hGet, hCand, ?_⟩, rfl⟩
        intro k c hqk hkq _
        exact absurd hkq (by omega)
  exact hAll entry hMem

theorem cse_replaced {function : IRFunction} {p : Nat} (hGet : function.instructions[p]? = some b) :
    (irCommonSubexpressionEliminationPass function).1.instructions[p]? = some b ∨
      ∃ i a, CseReaches function.instructions i p a b ∧
        (irCommonSubexpressionEliminationPass function).1.instructions[p]? =
          some (irRewriteToAssignOperand b a.dest) := by
  have hp : p < function.instructions.length := (List.getElem_of_getElem? hGet).1
  rw [getElem?_cse, hGet, Option.map_some]
  rcases cseStep_instruction (cseMapAt function.instructions p) b with
    h | ⟨hCand, entry, hMem, hMatch, h⟩
  · exact Or.inl (congrArg some h)
  · obtain ⟨hOld, hNotice⟩ := mem_cseInvalidate hMem
    obtain ⟨i, a, hAvail, rfl⟩ := cseMapAt_available (Nat.le_of_lt hp) hOld
    have hValue : (irExpressionEntryOf a).value = a.dest := by
      unfold irExpressionEntryOf
      split <;> rfl
    refine Or.inr ⟨i, a, ⟨hAvail, hGet, hCand, hMatch, hNotice⟩, ?_⟩
    rw [h, hValue]

/-! ## Execution -/

variable {a : IRInstruction}

section Execution

variable {V M : Type} {machine : Machine V M}

/-- The destination and the operands of `a` hold what `a` computed. -/
def Holds (machine : Machine V M) (state : IRState V M) (a : IRInstruction) : Prop :=
  ∃ v, machine.value state a.dest = some v ∧ machine.compute state a = some v

def CseHolds (machine : Machine V M) (instructions : List IRInstruction)
    (state : IRState V M) : Prop :=
  (∀ c, instructions[state.pc]? = some c → c.op ≠ .label) →
    ∀ i a, CseAvailable instructions i state.pc a → (∃ j b, CseReaches instructions i j a b) →
      Undisturbed machine.resident instructions i state.pc a → Holds machine state a

theorem execute_candidate (hCand : irInstructionIsCseCandidate a = true) (state : IRState V M) :
    machine.execute code state a = machine.finish state a.dest (machine.compute state a) := by
  unfold Machine.execute
  rcases candidate_op hCand with h | h | h | h <;> rw [h]

theorem CseHolds.step {state state' : IRState V M} (hInv : CseHolds machine code state)
    (hFit : ResultsFit machine code state) (hStep : machine.step code state = .running state') :
    CseHolds machine code state' := by
  intro hNotLabel i a hAvail hUsed hUndist
  unfold Machine.step at hStep
  cases hGet : code[state.pc]? with
  | none =>
    rw [hGet] at hStep
    cases hStep
  | some c =>
    rw [hGet] at hStep
    dsimp only at hStep
    have hPc : state'.pc = state.pc + 1 := by
      rcases execute_pc hStep with h | ⟨-, name, -, hIndex⟩
      · exact h
      · -- a jump lands on a label, where nothing is claimed
        obtain ⟨l, hl, hOp⟩ := getElem?_labelIndex hIndex
        exact absurd hOp (hNotLabel l hl)
    rw [hPc] at hAvail hUndist
    rcases Nat.lt_succ_iff_lt_or_eq.mp hAvail.lt with hLt | hEq
    · -- an older expression: this instruction keeps its operands and its destination
      have hHere := hAvail.between state.pc c hLt (Nat.lt_succ_self _) hGet
      have hOld : Holds machine state a := by
        refine hInv ?_ i a ⟨hLt, hAvail.first, hAvail.candidate, ?_⟩ hUsed
          ⟨hUndist.named, hUndist.lhs_ne, hUndist.rhs_ne, ?_⟩
        · intro c' hc'
          rw [hGet] at hc'
          cases hc'
          exact hHere.1
        · intro k d hik hk hd
          exact hAvail.between k d hik (Nat.lt_succ_of_lt hk) hd
        · intro k d hik hk hd
          exact hUndist.keeps k d hik (Nat.lt_succ_of_lt hk) hd
      obtain ⟨v, hDest, hCompute⟩ := hOld
      obtain ⟨hLhs, hRhs, hKeepsDest⟩ := hUndist.keeps state.pc c hLt (Nat.lt_succ_self _) hGet
      refine ⟨v, ?_, ?_⟩
      · rw [execute_keeps hStep hKeepsDest, hDest]
      · rw [compute_congr (execute_keeps hStep hLhs) (execute_keeps hStep hRhs), hCompute]
    · -- the expression of this very instruction
      have hSame : c = a := by
        have hFirst := hAvail.first
        rw [hEq, hGet] at hFirst
        exact Option.some.inj hFirst
      rw [hSame, execute_candidate hAvail.candidate] at hStep
      obtain ⟨v, hCompute, rfl⟩ := finish_running hStep
      have hKeep : ∀ operand, operand ≠ a.dest →
          machine.value (machine.write state a.dest v).next operand =
            machine.value state operand := by
        intro operand hNe
        rw [machine.value_next, machine.value_write_of_ne hNe]
      obtain ⟨j, b, hReach⟩ := hUsed
      refine ⟨v, ?_, ?_⟩
      · rw [machine.value_next, machine.value_write_self hUndist.named,
          (hFit i j a b v hReach).1 hEq.symm hCompute]
      · rw [compute_congr (hKeep _ hUndist.lhs_ne) (hKeep _ hUndist.rhs_ne), hCompute]

theorem candidate_text (hCand : irInstructionIsCseCandidate a = true) (hOp : a.op ≠ .addressOf)
    : some (a.text.getD "") = a.text := by
  unfold irInstructionIsCseCandidate at hCand
  cases hText : a.text with
  | some text => rfl
  | none =>
    rw [hText] at hCand
    rcases candidate_op (by unfold irInstructionIsCseCandidate; rw [hText]; exact hCand) with
      h | h | h | h <;> simp [h] at hCand
    exact absurd h hOp

theorem compute_eq_of_same (hCand : irInstructionIsCseCandidate a = true)
    (hMatch : irExpressionEntryMatchesInstruction (irExpressionEntryOf a) b = true)
    (hSame : SameExpression a b) (state : IRState V M) :
    machine.compute state b = machine.compute state a := by
  obtain ⟨hWidth, hConcat, hOperands⟩ := hSame
  rcases candidate_op hCand with hOp | hOp | hOp | hOp
  · -- binary: the operands agree, or are exchanged under a commutative operator
    have hText := candidate_text hCand (by rw [hOp]; decide)
    rw [irExpressionEntryOf, hOp] at hMatch
    simp only [irExpressionEntryMatchesInstruction, Bool.and_eq_true, beq_iff_eq, hText] at hMatch
    obtain ⟨⟨⟨hOpB, hTextB⟩, -⟩, -⟩ := hMatch
    generalize a.text.getD "" = op at hText hOperands
    have hOperate : ∀ x y, machine.operate b op x y = machine.operate a op x y := by
      intro x y
      rw [IRInstruction.concatenates, IRInstruction.concatenates, hTextB, ← hText] at hConcat
      by_cases hPlus : op = "+"
      · subst hPlus
        simp only [beq_self_eq_true, Bool.and_true] at hConcat
        rw [Machine.operate, Machine.operate, hConcat, hWidth]
      · rw [machine.operate_of_ne hPlus, machine.operate_of_ne hPlus, hWidth]
    simp only [Machine.compute, hOp, hOpB, hTextB, ← hText]
    rcases hOperands with ⟨hLhs, hRhs⟩ | ⟨-, hComm, hPlain, hLhs, hRhs⟩
    · rw [hLhs, hRhs hOp]
      cases machine.value state b.lhs <;> cases machine.value state b.rhs <;> try rfl
      exact hOperate _ _
    · rw [hLhs, hRhs]
      cases machine.value state b.lhs <;> cases machine.value state b.rhs <;> try rfl
      rename_i x y
      have hNot : ¬ (a.astRef = true ∧ op = "+") := by
        rintro ⟨hAst, rfl⟩
        rw [IRInstruction.concatenates, hAst, ← hText] at hPlain
        exact absurd hPlain (by decide)
      dsimp only
      rw [hOperate, Machine.operate, Machine.operate, if_neg hNot, if_neg hNot]
      exact machine.binary_comm _ a.floatWidth x y hComm
  all_goals
    have hLhs : a.lhs = b.lhs := by
      rcases hOperands with ⟨h, -⟩ | ⟨h, -⟩
      · exact h
      · rw [hOp] at h
        cases h
    rw [irExpressionEntryOf, hOp] at hMatch
    simp only [irExpressionEntryMatchesInstruction, Bool.and_eq_true, beq_iff_eq] at hMatch
  · have hText := candidate_text hCand (by rw [hOp]; decide)
    rw [hText] at hMatch
    simp only [Machine.compute, hOp, hMatch.1.1.1, hMatch.1.1.2, hWidth, hLhs]
  · have hText := candidate_text hCand (by rw [hOp]; decide)
    rw [hText] at hMatch
    simp only [Machine.compute, hOp, hMatch.1.1.1, hMatch.1.1.2, hWidth, hLhs]
  · simp only [Machine.compute, hOp, hMatch.1, hLhs]

theorem CseHolds.replaced {state : IRState V M} {i : Nat} {a b : IRInstruction}
    (hSafe : CseSafe machine.resident code) (hInv : CseHolds machine code state)
    (hReach : CseReaches code i state.pc a b) :
    ∃ v, machine.value state a.dest = some v ∧ machine.compute state b = some v := by
  obtain ⟨hUndist, hSame⟩ := hSafe i state.pc a b hReach
  have hNotLabel : ∀ c, code[state.pc]? = some c → c.op ≠ .label := by
    intro c hc
    rw [hReach.second] at hc
    cases hc
    rcases candidate_op hReach.candidate_second with h | h | h | h <;> rw [h] <;> decide
  obtain ⟨v, hDest, hCompute⟩ := hInv hNotLabel i a hReach.toCseAvailable ⟨_, b, hReach⟩ hUndist
  refine ⟨v, hDest, ?_⟩
  rw [compute_eq_of_same hReach.candidate hReach.same hSame, hCompute]

theorem cseHolds_start {state : IRState V M} (hPc : state.pc = 0) :
    CseHolds machine code state := by
  intro _ i a hAvail _ _
  have hLt := hAvail.lt
  rw [hPc] at hLt
  exact absurd hLt (Nat.not_lt_zero i)

end Execution

/-! ## The pass preserves runs -/

theorem labelIndex_cse (function : IRFunction) (name : String) :
    labelIndex (irCommonSubexpressionEliminationPass function).1.instructions name =
      labelIndex function.instructions name := by
  refine labelIndex_congr ?_ name
  intro name p
  cases hGet : function.instructions[p]? with
  | none =>
    rw [getElem?_cse, hGet]
    rfl
  | some b =>
    rcases cse_replaced hGet with h | ⟨i, a, hReach, h⟩
    · rw [h]
    · rw [h]
      -- a candidate is no label, and neither is the copy that replaces it
      have hOp : b.op ≠ .label := by
        rcases candidate_op hReach.candidate_second with h | h | h | h <;> rw [h] <;> decide
      have hBeq : (b.op == IROpcode.label) = false := beq_eq_false_iff_ne.mpr hOp
      simp only [Option.map_some, hBeq, Bool.false_and]
      rfl

/-- What the pass promises for one start of one function: every run is the same, with the
value it returns, the memory it leaves and its calls; and a destination that is copied holds
the value of the expression it stands for. -/
structure CsePreserves {V M : Type} (machine : Machine V M) (function : IRFunction)
    (start : IRState V M) : Prop where
  run_eq : ∀ n,
    machine.run (irCommonSubexpressionEliminationPass function).1.instructions n (.running start) =
      machine.run function.instructions n (.running start)
  copied : ∀ n state b b', machine.run function.instructions n (.running start) = .running state →
    function.instructions[state.pc]? = some b →
    (irCommonSubexpressionEliminationPass function).1.instructions[state.pc]? = some b' →
    b' = b ∨ ∃ existing v, b' = irRewriteToAssignOperand b existing ∧
      machine.value state existing = some v ∧ machine.compute state b = some v

section Runs

variable {V M : Type} {machine : Machine V M} {function : IRFunction}

/-- The copy that replaces an expression is an assignment of a word. -/
theorem moved_rewritten {a b : IRInstruction} {v : V}
    (hNamed : (∃ name, a.dest = .temp name) ∨ ∃ name, a.dest = .symbol name) :
    machine.moved (irRewriteToAssignOperand b a.dest) v =
      machine.moved { op := .assign, dest := b.dest, lhs := a.dest } v := by
  rcases hNamed with ⟨name, hDest⟩ | ⟨name, hDest⟩ <;> rw [hDest] <;> rfl

theorem cse_step_eq {state : IRState V M} (hSafe : CseSafe machine.resident function.instructions)
    (hFit : ResultsFit machine function.instructions state)
    (hInv : CseHolds machine function.instructions state) :
    machine.step (irCommonSubexpressionEliminationPass function).1.instructions state =
      machine.step function.instructions state := by
  unfold Machine.step
  cases hGet : function.instructions[state.pc]? with
  | none => rw [getElem?_cse, hGet, Option.map_none]
  | some b =>
    rcases cse_replaced hGet with h | ⟨i, a, hReach, h⟩
    · rw [h]
      exact execute_congr machine (labelIndex_cse function) state b
    · rw [h]
      obtain ⟨v, hDest, hCompute⟩ := hInv.replaced hSafe hReach
      have hCopy : machine.execute (irCommonSubexpressionEliminationPass function).1.instructions
          state (irRewriteToAssignOperand b a.dest) =
          machine.finish state b.dest ((machine.value state a.dest).map
            (machine.moved (irRewriteToAssignOperand b a.dest))) := rfl
      have hMoved : machine.moved (irRewriteToAssignOperand b a.dest) v = v := by
        rw [moved_rewritten (hSafe i state.pc a b hReach).1.named]
        exact (hFit i state.pc a b v hReach).2 rfl hCompute
      dsimp only
      rw [hCopy, hDest, execute_candidate hReach.candidate_second, hCompute, Option.map_some,
        hMoved]

/-- **The pass is sound** where no silent write separates an expression from its reuse, in
every run that loses no part of a result that is used again. -/
theorem cse_preserves (hSafe : CseSafe machine.resident function.instructions)
    {start : IRState V M} (hStart : start.pc = 0)
    (hFit : ∀ n state, machine.run function.instructions n (.running start) = .running state →
      ResultsFit machine function.instructions state) :
    CsePreserves machine function start := by
  let Inv : IRState V M → Prop := fun state =>
    CseHolds machine function.instructions state ∧
      ∃ n, machine.run function.instructions n (.running start) = .running state
  have hInit : ∀ state, Outcome.running start = .running state → Inv state := by
    intro state h
    cases h
    exact ⟨cseHolds_start hStart, 0, rfl⟩
  have hStep : ∀ state state', Inv state →
      machine.step function.instructions state = .running state' → Inv state' := by
    rintro state state' ⟨hInv, n, hReach⟩ hRun
    exact ⟨hInv.step (hFit n state hReach) hRun, n + 1, (run_succ machine hReach).trans hRun⟩
  refine ⟨?_, ?_⟩
  · intro n
    refine run_eq_of_invariant machine Inv ?_ hStep n _ hInit
    rintro state ⟨hInv, m, hReach⟩
    exact cse_step_eq hSafe (hFit m state hReach) hInv
  · intro n state b b' hRun hGet hGet'
    obtain ⟨hInv, -⟩ := run_invariant machine Inv hStep n _ hInit hRun
    rcases cse_replaced hGet with h | ⟨i, a, hReach, h⟩
    · rw [h] at hGet'
      exact Or.inl (Option.some.inj hGet').symm
    · rw [h] at hGet'
      obtain ⟨v, hDest, hCompute⟩ := hInv.replaced hSafe hReach
      exact Or.inr ⟨a.dest, v, (Option.some.inj hGet').symm, hDest, hCompute⟩

end Runs

/-- `t = x + 1; u = 1 + x; return u` after `x = 4`: the second sum is a copy of the first. -/
def twoSums : IRFunction :=
  { name := "two_sums"
    parameterNames := []
    instructions :=
      [{ op := .assign, dest := .symbol "x", lhs := .int 4 },
       { op := .binary, dest := .temp "t", lhs := .symbol "x", rhs := .int 1, text := some "+" },
       { op := .binary, dest := .temp "u", lhs := .int 1, rhs := .symbol "x", text := some "+" },
       { op := .return_, lhs := .temp "u" }] }

theorem twoSums_cseSafe (resident : String → Bool) : CseSafe resident twoSums.instructions := by
  intro i j a b h
  -- only the two sums are candidates
  have hj : j < 4 := (List.getElem_of_getElem? h.second).1
  have hPair : i = 1 ∧ j = 2 := by
    have hLt := h.lt
    have hA := h.candidate
    have hB := h.candidate_second
    have hFirst := h.first
    have hSecond := h.second
    interval_cases j <;> interval_cases i <;> cases hFirst <;> cases hSecond <;>
      first | exact ⟨rfl, rfl⟩ | exact absurd hA (by decide) | exact absurd hB (by decide)
  obtain ⟨rfl, rfl⟩ := hPair
  have hFirst := h.first
  have hSecond := h.second
  cases hFirst
  cases hSecond
  refine ⟨⟨Or.inl ⟨"t", rfl⟩, by decide, by decide, ?_⟩, by decide⟩
  intro k c hik hkj
  omega

theorem cse_preserves_twoSums : ((irCommonSubexpressionEliminationPass twoSums).1.instructions[2]? =
      some { op := .assign, dest := .temp "u", lhs := .temp "t" }) ∧
      CsePreserves (wordMachine fun _ => false) twoSums wordStart :=
  ⟨by decide, cse_preserves (twoSums_cseSafe _) rfl fun _ _ _ _ _ _ _ _ _ =>
    ⟨fun _ _ => wordMachine_kept _ _ _, fun _ _ => wordMachine_moved _ _ _⟩⟩

/-- `x = 0; x = x + 1; y = x + 1; return y`: the sum is recorded under its own operand. -/
def selfIncrement : IRFunction :=
  { name := "self_increment"
    parameterNames := []
    instructions :=
      [{ op := .assign, dest := .symbol "x", lhs := .int 0 },
       { op := .binary, dest := .symbol "x", lhs := .symbol "x", rhs := .int 1, text := some "+" },
       { op := .binary, dest := .symbol "y", lhs := .symbol "x", rhs := .int 1, text := some "+" },
       { op := .return_, lhs := .symbol "y" }] }

theorem not_csePreserves_selfIncrement :
    ¬ CsePreserves (wordMachine fun _ => false) selfIncrement wordStart := by
  intro h
  have hRun := congrArg Outcome.value (h.run_eq 4)
  exact absurd hRun (by decide)

end Mettle.IR
