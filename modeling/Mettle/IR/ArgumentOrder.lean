import Mettle.IR.LoweringFrame

/-!
# Mettle — arguments are evaluated from left to right

A call is lowered to the code of its arguments, one after the other, and a call
instruction that reads their operands. Each argument has a *point*: the place
where its code ends. This module follows a run from the start of a call's code to
its call instruction. The run comes to the points in order, and what the call
passes as an argument is what the argument's operand had at its point, unless
that operand is a variable that a later argument changes.
-/

namespace Mettle.IR

open Mettle.Lib List Option
open Mettle.Parser
open Mettle.Semantic (Ty Symbol receiverStruct)

-- ---
-- Runs that stay in a piece of code
-- ---

variable {code : List IRInstruction} {n : Nat}

section Runs

variable {V M : Type} {machine : Machine V M} {start : IRState V M}

theorem run_succ_running {outcome : Outcome V M} {state' : IRState V M}
    (h : machine.run code (n + 1) outcome = .running state') :
    ∃ state, machine.run code n outcome = .running state ∧
      machine.step code state = .running state' := by
  induction n generalizing outcome with
  | zero =>
    cases outcome with
    | running state => exact ⟨state, rfl, by simpa [Machine.run] using h⟩
    | returned value state => cases h
    | stuck state => cases h
  | succ n ih =>
    cases outcome with
    | running state =>
      exact ih h
    | returned value state => cases h
    | stuck state => cases h

variable {state : IRState V M}

theorem run_running_of_le {k : Nat} {outcome : Outcome V M} (hLe : k ≤ n)
    (h : machine.run code n outcome = .running state) :
    ∃ earlier, machine.run code k outcome = .running earlier := by
  induction n generalizing state with
  | zero =>
    obtain rfl := Nat.le_zero.mp hLe
    exact ⟨state, h⟩
  | succ n ih =>
    rcases Nat.le_succ_iff.mp hLe with hLess | rfl
    · obtain ⟨before, hBefore, -⟩ := run_succ_running h
      exact ih hLess hBefore
    · exact ⟨state, h⟩

/-- Control leaves `[lo, hi)` only by reaching its end. -/
def Enclosed (machine : Machine V M) (instructions : List IRInstruction) (lo hi : Nat) : Prop :=
  ∀ state state', lo ≤ state.pc → state.pc < hi →
    machine.step instructions state = .running state' → lo ≤ state'.pc ∧ state'.pc ≤ hi

def Within (machine : Machine V M) (instructions : List IRInstruction) (start : IRState V M)
    (first last lo hi : Nat) : Prop :=
  ∀ k state, first ≤ k → k < last → machine.run instructions k (.running start) = .running state →
    lo ≤ state.pc ∧ state.pc < hi

theorem Enclosed.first_exit {lo hi a : Nat} {final : IRState V M}
    (hEnclosed : Enclosed machine code lo hi) (hLe : a ≤ n)
    (hState : machine.run code a (.running start) = .running state) (hLo : lo ≤ state.pc)
    (hHi : state.pc ≤ hi) (hFinal : machine.run code n (.running start) = .running final)
    (hBeyond : hi ≤ final.pc) :
    ∃ m stop, a ≤ m ∧ m ≤ n ∧ machine.run code m (.running start) = .running stop ∧
      stop.pc = hi ∧ Within machine code start a m lo hi := by
  -- by induction on the steps that are left
  obtain ⟨d, rfl⟩ := Nat.exists_eq_add_of_le hLe
  induction d generalizing a state with
  | zero =>
    have hSame : state = final := by
      exact Outcome.running.inj (hState.symm.trans hFinal)
    refine ⟨a, state, le_refl a, le_refl a, hState, ?_, ?_⟩
    · rw [hSame] at hHi ⊢
      exact le_antisymm hHi hBeyond
    · intro k other hFirst hLast
      omega
  | succ d ih =>
    by_cases hAt : state.pc = hi
    · refine ⟨a, state, le_refl a, by omega, hState, hAt, ?_⟩
      intro k other hFirst hLast
      omega
    · obtain ⟨next, hNext⟩ := run_running_of_le (k := a + 1) (by omega) hFinal
      have hStep : machine.step code state = .running next := by
        rw [← run_succ machine hState]
        exact hNext
      have hPc : state.pc < hi := lt_of_le_of_ne hHi hAt
      obtain ⟨hLo', hHi'⟩ := hEnclosed state next hLo hPc hStep
      obtain ⟨m, stop, hFrom, hTo, hStop, hStopPc, hWithin⟩ :=
        ih hNext hLo' hHi' (by omega) (by rwa [Nat.add_assoc, Nat.add_comm 1 d])
      refine ⟨m, stop, by omega, by omega, hStop, hStopPc, ?_⟩
      intro k other hFirst hLast hOther
      by_cases hk : k = a
      · rw [hk, hState] at hOther
        rw [← Outcome.running.inj hOther]
        exact ⟨hLo, hPc⟩
      · exact hWithin k other (by omega) hLast hOther

theorem Enclosed.within {lo hi a : Nat} (hEnclosed : Enclosed machine code lo hi)
    (hState : machine.run code a (.running start) = .running state) (hLo : lo ≤ state.pc)
    (hHi : state.pc ≤ hi)
    (hNever : ∀ k other, k < n → machine.run code k (.running start) = .running other →
      other.pc ≠ hi) :
    Within machine code start a n lo hi := by
  have hIn : ∀ d other, a + d ≤ n → machine.run code (a + d) (.running start) = .running other →
      lo ≤ other.pc ∧ other.pc ≤ hi := by
    intro d
    induction d with
    | zero =>
      intro other _ hOther
      rw [Nat.add_zero, hState] at hOther
      rw [← Outcome.running.inj hOther]
      exact ⟨hLo, hHi⟩
    | succ d ih =>
      intro other hLe hOther
      obtain ⟨before, hBefore, hStep⟩ := run_succ_running hOther
      obtain ⟨hLo', hHi'⟩ := ih before (by omega) hBefore
      have hNe := hNever (a + d) before (by omega) hBefore
      exact hEnclosed before other hLo' (lt_of_le_of_ne hHi' hNe) hStep
  intro k other hFirst hLast hOther
  obtain ⟨d, rfl⟩ := Nat.exists_eq_add_of_le hFirst
  obtain ⟨hLo', hHi'⟩ := hIn d other (by omega) hOther
  exact ⟨hLo', lt_of_le_of_ne hHi' (hNever (a + d) other hLast hOther)⟩

theorem Within.keeps {α : Type} {lo hi a : Nat} {final : IRState V M}
    (hWithin : Within machine code start a n lo hi) (f : IRState V M → α)
    (hKeeps : ∀ k before after, a ≤ k → k < n →
      machine.run code k (.running start) = .running before →
      machine.run code (k + 1) (.running start) = .running after →
      lo ≤ before.pc → before.pc < hi → machine.step code before = .running after →
      f after = f before) (hLe : a ≤ n)
    (hState : machine.run code a (.running start) = .running state)
    (hFinal : machine.run code n (.running start) = .running final) :
    f final = f state := by
  obtain ⟨d, rfl⟩ := Nat.exists_eq_add_of_le hLe
  induction d generalizing final with
  | zero =>
    rw [Nat.add_zero, hState] at hFinal
    rw [Outcome.running.inj hFinal]
  | succ d ih =>
    obtain ⟨before, hBefore, hStep⟩ := run_succ_running (n := a + d) hFinal
    have hEarlier : f before = f state := by
      refine ih ?_ ?_ (by omega) hBefore
      · intro k other hFirst hLast
        exact hWithin k other hFirst (by omega)
      · intro k before' after hFirst hLast
        exact hKeeps k before' after hFirst (by omega)
    obtain ⟨hLo, hHi⟩ := hWithin (a + d) before (by omega) (by omega) hBefore
    rw [hKeeps (a + d) before final (by omega) (by omega) hBefore hFinal hLo hHi hStep, hEarlier]

end Runs

-- ---
-- The code of an expression
-- ---

/-- The labels of a code are numbered, and their numbers are in `P`. -/
def LabelsIn (P : Nat → Prop) (code : List IRInstruction) : Prop :=
  ∀ instruction ∈ code, instruction.op = .label →
    ∃ stem k, instruction.text = some (labelName stem k) ∧ P k

def LabelsBelow (s : Lowering) : Prop := LabelsIn (· < s.nextLabelId) s.code

def LabelsFrom (number : Nat) (code : List IRInstruction) : Prop := LabelsIn (number ≤ ·) code

/-- None of the labels of later code was numbered between two states. -/
def LabelsApart (s s' : Lowering) (code : List IRInstruction) : Prop :=
  LabelsIn (fun k => k < s.nextLabelId ∨ s'.nextLabelId ≤ k) code

variable {instruction : IRInstruction}

section Labels

variable {P Q : Nat → Prop} {code code' : List IRInstruction} {stem : String} {k : Nat}

theorem LabelsIn.mono (h : LabelsIn P code) (hPQ : ∀ k, P k → Q k) : LabelsIn Q code := by
  intro instruction hMem hOp
  obtain ⟨stem, k, hText, hk⟩ := h instruction hMem hOp
  exact ⟨stem, k, hText, hPQ k hk⟩

@[simp] theorem labelsIn_append :
    LabelsIn P (code ++ code') ↔ LabelsIn P code ∧ LabelsIn P code' := by
  simp [LabelsIn, or_imp, forall_and]

theorem labelIndex_of_labelsIn (stem : String) (h : LabelsIn (· ≠ k) code)
    (rest : List IRInstruction) :
    labelIndex (code ++ { op := .label, text := some (labelName stem k) } :: rest)
      (labelName stem k) = some code.length := by
  rw [labelIndex, findIdx?_append]
  have hNone : findIdx? (fun instruction => instruction.op == .label &&
      instruction.text == some (labelName stem k)) code = none := by
    rw [findIdx?_eq_none_iff]
    intro instruction hMem
    rw [Bool.and_eq_false_iff]
    by_cases hOp : instruction.op = .label
    · obtain ⟨stem', k', hText, hk⟩ := h instruction hMem hOp
      right
      rw [hText, beq_eq_false_iff_ne]
      intro hSame
      exact hk (labelName_number (some.inj hSame))
    · left
      rwa [beq_eq_false_iff_ne]
  rw [hNone]
  simp [findIdx?_cons]

end Labels

variable {names : List Name} {tail : List IRInstruction}

section Enclosure

variable {base s s' : Lowering}

theorem LabelsFrom.apart (h : LabelsFrom s'.nextLabelId code) : LabelsApart s s' code :=
  h.mono fun _ => Or.inr

theorem LabelsBelow.extends (h : LabelsBelow s) (hExtends : Extends base names s s') :
    LabelsBelow s' := by
  obtain ⟨added, hCode, hAdded⟩ := hExtends.code
  intro instruction hMem hOp
  rw [hCode] at hMem
  rcases mem_append.mp hMem with hOld | hNew
  · obtain ⟨stem, k, hText, hLt⟩ := h instruction hOld hOp
    exact ⟨stem, k, hText, hLt.trans_le hExtends.before.labels⟩
  · obtain ⟨x, hText, stem, k, rfl, -, hLt⟩ := (hAdded instruction hNew).label hOp
    exact ⟨stem, k, hText, hLt⟩

theorem LabelsFrom.extends (hExtends : Extends s names s s')
    (hTail : LabelsFrom s'.nextLabelId tail) :
    ∃ added, s'.code = s.code ++ added ∧ LabelsFrom s.nextLabelId (added ++ tail) := by
  obtain ⟨added, hCode, hAdded⟩ := hExtends.code
  refine ⟨added, hCode, ?_⟩
  intro instruction hMem hOp
  rcases mem_append.mp hMem with hNew | hLater
  · obtain ⟨x, hText, stem, k, rfl, hLe, -⟩ := (hAdded instruction hNew).label hOp
    exact ⟨stem, k, hText, hLe⟩
  · obtain ⟨stem, k, hText, hLe⟩ := hTail instruction hLater hOp
    exact ⟨stem, k, hText, hExtends.before.labels.trans hLe⟩

theorem labelIndex_range {x : String} {index : Nat} (hBelow : LabelsBelow s)
    (hExtends : Extends s names s s') (hTail : LabelsApart s s' tail) (hNew : NewName s s' x)
    (hIndex : labelIndex (s'.code ++ tail) x = some index) :
    s.code.length ≤ index ∧ index < s'.code.length := by
  obtain ⟨stem, k, rfl, hLow, hHigh⟩ := hNew
  obtain ⟨hLt, hIs, -⟩ := findIdx?_eq_some_iff_getElem.mp hIndex
  rw [Bool.and_eq_true, beq_iff_eq, beq_iff_eq] at hIs
  obtain ⟨hOp, hText⟩ := hIs
  -- earlier code has smaller numbers, later code other ones
  have hNotBefore : ¬ index < s.code.length := by
    intro hBefore
    obtain ⟨added, hCode, -⟩ := hExtends.code
    have hMem : (s'.code ++ tail)[index] ∈ s.code := by
      simp only [hCode, append_assoc]
      rw [getElem_append_left hBefore]
      exact getElem_mem hBefore
    obtain ⟨stem', k', hText', hLt'⟩ := hBelow _ hMem hOp
    have hNumber := labelName_number (some.inj (hText.symm.trans hText'))
    omega
  have hNotAfter : index < s'.code.length := by
    by_contra hAfter
    have hMem : (s'.code ++ tail)[index] ∈ tail := by
      rw [getElem_append_right (Nat.le_of_not_lt hAfter)]
      exact getElem_mem _
    obtain ⟨stem', k', hText', hLe'⟩ := hTail _ hMem hOp
    have hNumber := labelName_number (some.inj (hText.symm.trans hText'))
    omega
  exact ⟨Nat.le_of_not_lt hNotBefore, hNotAfter⟩

theorem Extends.confined_at {p : Nat} (hExtends : Extends base names s s') (hLo : s.code.length ≤ p)
    (hHi : p < s'.code.length) (hAt : (s'.code ++ tail)[p]? = some instruction) :
    Confined base s' names instruction := by
  obtain ⟨added, hCode, hAdded⟩ := hExtends.code
  refine hAdded instruction ?_
  rw [getElem?_append_left hHi, hCode, getElem?_append_right hLo] at hAt
  exact mem_of_getElem? hAt

variable {V M : Type} {machine : Machine V M}

/-- **Control stays in the code of an expression** until it comes to its end. -/
theorem enclosed_of_extends (hBelow : LabelsBelow s) (hExtends : Extends s names s s')
    (hTail : LabelsApart s s' tail) :
    Enclosed machine (s'.code ++ tail) s.code.length s'.code.length := by
  intro state state' hLo hHi hStep
  unfold Machine.step at hStep
  split at hStep
  · cases hStep
  · rename_i instruction hAt
    have hConfined := hExtends.confined_at hLo hHi hAt
    rcases execute_pc hStep with hNext | ⟨hJump, x, hText, hIndex⟩
    · omega
    · have hOp : instruction.op.jumps = true := by
        rcases hJump with hIs | hIs | hIs <;> rw [hIs] <;> rfl
      obtain ⟨y, hText', hNew⟩ := hConfined.jump hOp
      obtain rfl : x = y := some.inj (hText.symm.trans hText')
      have hRange := labelIndex_range hBelow hExtends hTail hNew hIndex
      omega

end Enclosure

-- ---
-- The arguments of a call
-- ---

/-- An argument as lowering leaves it: its operand, whether the characters it
points to are passed in its place, and the place where its code ends. -/
structure Argument where
  operand : IROperand
  toCstring : Bool
  point : Nat

/-- The operands of `lowerArguments`, each with its place. -/
def evaluations (info : Lookups) : List Expr → Lower (List Argument)
  | [] => pure []
  | e :: es => do
    let operand ← lowerExpression info e
    let s ← get
    let rest ← evaluations info es
    pure ({ operand := operand, toCstring := false, point := s.code.length } :: rest)

def Argument.converted (info : Lookups) (isDirect : Bool) (parameter : Ty) (question : Nat)
    (e : Expr) (argument : Argument) : Argument :=
  if shouldCoerceToCstring info parameter question e then { argument with toCstring := true }
  else if isDirect then
    { argument with
      operand := applyFloatBits info (typeFloatBits (some parameter)) argument.operand }
  else argument

def planArguments (info : Lookups) (isDirect : Bool) :
    List Ty → List Expr → List Argument → Nat → List Argument
  | parameter :: parameters, e :: es, argument :: arguments, question =>
    argument.converted info isDirect parameter question e ::
      planArguments info isDirect parameters es arguments (question + 1)
  | _, _, arguments, _ => arguments

def namedEvaluations (info : Lookups) (f : Name) (es : List Expr) : Lower (List Argument) := do
  let _ ← nextQuestion
  let _ ← makeTempOperand
  let arguments ← evaluations info es
  let s ← get
  pure (planArguments info true (declaredParameters (info.symbolNamed f)) es arguments s.questions)

def callEvaluations (info : Lookups) : Expr → Lower (List Argument)
  | .functionCall f es => namedEvaluations info f es
  | .methodCall object f es => do
    let receiver ← inferExpressionType info object
    let mangled ← methodFunction receiver f
    namedEvaluations info mangled (object :: es)
  | .funcPtrCall function es => do
    let _ ← makeTempOperand
    let _ ← lowerExpression info function
    let arguments ← evaluations info es
    let parameters := pointerParameters (← inferExpressionType info function)
    let s ← get
    pure (planArguments info false parameters es arguments s.questions)
  | _ => pure []

def callArguments : Expr → List Expr
  | .functionCall _ es => es
  | .methodCall object _ es => object :: es
  | .funcPtrCall _ es => es
  | _ => []

def isCallee (info : Lookups) (f : Name) : Bool :=
  f != "sizeof" && f != "static_assert" &&
    match info.symbolNamed f with
    | some (.constructor _ _) => false
    | _ => true

def emitsCall (info : Lookups) (question : Nat) : Expr → Bool
  | .functionCall f _ => isCallee info f
  | .methodCall object f _ =>
    f != "sizeof" && f != "static_assert" &&
      (((info.typeOf question object).bind receiverStruct).any fun s =>
        isCallee info (s ++ "_" ++ f))
  | .funcPtrCall _ _ => true
  | _ => false

-- ---
-- The property
-- ---

section Property

variable {V M : Type}

def Argument.value (machine : Machine V M) (argument : Argument) (state : IRState V M) :
    Option V :=
  if argument.toCstring then
    (machine.value state argument.operand).bind fun record =>
      machine.load record (machine.int 8) 0 state.memory
  else machine.value state argument.operand

/-- The run comes to `point` once, in this state: what it executes before stands
before the point, and what it executes from there on stands behind it. -/
def StandsAt (machine : Machine V M) (instructions : List IRInstruction) (start : IRState V M)
    (n point : Nat) (state : IRState V M) : Prop :=
  ∃ m, m ≤ n ∧ machine.run instructions m (.running start) = .running state ∧ state.pc = point ∧
    (∀ k other, k < m → machine.run instructions k (.running start) = .running other →
      other.pc < point) ∧
    ∀ k other, m ≤ k → k ≤ n → machine.run instructions k (.running start) = .running other →
      point ≤ other.pc

/-- The run has come to `place` for the first time. -/
structure ReachesFirst (machine : Machine V M) (instructions : List IRInstruction)
    (start : IRState V M) (n : Nat) (final : IRState V M) (place : Nat) : Prop where
  run : machine.run instructions n (.running start) = .running final
  here : final.pc = place
  first : ∀ k other, k < n → machine.run instructions k (.running start) = .running other →
    other.pc ≠ place

/-- **Arguments in order.** -/
def PassedInOrder (machine : Machine V M) (instructions code : List IRInstruction)
    (arguments : List Argument) (start : IRState V M) (n : Nat) (final : IRState V M) : Prop :=
  ∃ call, code.getLast? = some call ∧ (call.op = .call ∨ call.op = .callIndirect) ∧
    call.arguments.length = arguments.length ∧
    ∀ (i : Nat) (argument : Argument) operand, arguments[i]? = some argument →
      call.arguments[i]? = some operand →
      ∃ state, StandsAt machine instructions start n argument.point state ∧
        machine.value final operand = argument.value machine state

/-- The step leaves alone the memory that an argument is taken from: a store or a
call does not change its variable, and no instruction changes the characters that
it points to. -/
def Argument.LeftAlone (machine : Machine V M) (instructions : List IRInstruction)
    (argument : Argument) (state state' : IRState V M) : Prop :=
  (∀ instruction x, instructions[state.pc]? = some instruction →
    instruction.op.touchesMemory = true → argument.operand = .symbol x →
    machine.resident x = true →
    machine.getResident state'.memory x = machine.getResident state.memory x) ∧
  (∀ record, argument.toCstring = true → machine.value state argument.operand = some record →
    machine.load record (machine.int 8) 0 state'.memory =
      machine.load record (machine.int 8) 0 state.memory)

/-- A variable and the names that later code binds are apart, and none of them is
named as lowering names its own locals. -/
structure Apart (x : Option Name) (later : List Name) : Prop where
  unbound : ∀ y, x = some y → y ∉ later
  named : ∀ y, x = some y → ∀ stem k, y ≠ labelName stem k
  bound : ∀ y ∈ later, ∀ stem k, y ≠ labelName stem k

/-- The condition on the names: a variable that is an argument is not bound by a
match in a later one, and neither it nor a binding is named as lowering names its
own locals. -/
def NamesApart (es : List Expr) : Prop :=
  ∀ (i : Nat) e, es[i]? = some e → Apart (bareVariable e) (bindingsOfList (es.drop (i + 1)))

/-- The condition on the steps: whatever runs behind the end of an argument leaves
it alone. -/
def StepsApart (machine : Machine V M) (instructions : List IRInstruction)
    (arguments : List Argument) (start : IRState V M) (n : Nat) : Prop :=
  ∀ (i : Nat) (argument : Argument) k state state', arguments[i]? = some argument → k < n →
    machine.run instructions k (.running start) = .running state →
    machine.run instructions (k + 1) (.running start) = .running state' →
    argument.point ≤ state.pc → argument.LeftAlone machine instructions state state'

end Property

-- ---
-- What lowering the arguments gives
-- ---

variable {parameters : List Ty} {arguments : List Argument} {question : Nat} {argument : Argument}
  {result operand : IROperand} {e : Expr} {es : List Expr} {converted operands : List IROperand}

section Arguments

variable {info : Lookups} {s s' : Lowering}

/-- What is known of an argument: the state in which its code ends, between the
code before it and the code of the later ones. -/
structure Argument.Placed (info : Lookups) (s s' : Lowering) (es : List Expr) (e : Expr)
    (later : List Expr) (argument : Argument) (here : Lowering) : Prop where
  point : here.code.length = argument.point
  before : Extends s (bindingsOfList es) s here
  settled : Settled (bareVariable e) here argument.operand
  after : Extends here (bindingsOfList later) here s'

theorem evaluations_of_lowerArguments (h : lowerArguments info es s = .ok (operands, s')) :
    ∃ arguments, evaluations info es s = .ok (arguments, s') ∧
      arguments.map Argument.operand = operands ∧ arguments.length = es.length ∧
      (∀ argument ∈ arguments, argument.toCstring = false) ∧
      ∀ (i : Nat) e (argument : Argument), es[i]? = some e → arguments[i]? = some argument →
        ∃ here, argument.Placed info s s' es e (es.drop (i + 1)) here := by
  induction es generalizing s operands with
  | nil =>
    cases h
    exact ⟨[], rfl, rfl, rfl, by simp, by simp⟩
  | cons e es ih =>
    rw [lowerArguments, bind_run_ok] at h
    obtain ⟨first, here, hFirst, h⟩ := h
    rw [bind_run_ok] at h
    obtain ⟨rest, last, hRest, h⟩ := h
    rw [pure_run_ok] at h
    obtain ⟨rfl, rfl⟩ := Prod.mk.inj h
    obtain ⟨arguments, hRun, hMap, hLength, hPlain, hPlaced⟩ := ih hRest
    have hHead := (lowerExpression_frames e (List.Subset.refl _) s s).run hFirst
    have hTail := (lowerArguments_frames es (List.Subset.refl _) here here).run hRest
    refine ⟨{ operand := first, toCstring := false, point := here.code.length } :: arguments,
      ?_, ?_, ?_, ?_, ?_⟩
    · rw [evaluations, bind_run_ok]
      refine ⟨first, here, hFirst, ?_⟩
      rw [bind_run_ok]
      refine ⟨here, here, rfl, ?_⟩
      rw [bind_run_ok]
      exact ⟨arguments, last, hRun, rfl⟩
    · rw [map_cons, hMap]
    · rw [length_cons, length_cons, hLength]
    · intro argument hArgument
      rcases mem_cons.mp hArgument with rfl | hRest
      · rfl
      · exact hPlain argument hRest
    · intro i e' argument he hArgument
      have hLeft : Extends s (bindingsOfList (e :: es)) s here := by
        refine hHead.1.mono (Before.refl s) ?_
        exact subset_append_left _ _
      cases i with
      | zero =>
        cases he
        cases hArgument
        exact ⟨here, rfl, hLeft, hHead.2, hTail.1⟩
      | succ i =>
        obtain ⟨there, hPoint, hBefore, hSettled, hAfter⟩ :=
          hPlaced i e' argument (by simpa using he) (by simpa using hArgument)
        refine ⟨there, hPoint, hLeft.trans ?_, hSettled, ?_⟩
        · refine hBefore.mono hHead.1.before ?_
          exact subset_append_right _ _
        · simpa using hAfter

theorem applyFloatBits_of_settled {x : Option Name} {bits : Nat}
    (h : Settled x s operand) : Settled x s (applyFloatBits info bits operand) := by
  cases operand with
  | float v b =>
    show Settled x s (if bits = 32 then _ else if bits = 64 then _ else _)
    split
    · trivial
    · split <;> trivial
  | _ => exact h

variable {isDirect : Bool}

theorem planArguments_length (parameters : List Ty) (es : List Expr) (arguments : List Argument)
    (question : Nat) :
    (planArguments info isDirect parameters es arguments question).length = arguments.length := by
  induction parameters generalizing es arguments question with
  | nil => rfl
  | cons parameter parameters ih =>
    unfold planArguments
    split
    · rename_i hParameters
      cases hParameters
      rw [length_cons, length_cons, ih]
    · rfl

theorem planArguments_placed {i : Nat}
    (h : (planArguments info isDirect parameters es arguments question)[i]? = some argument) :
    ∃ plain, arguments[i]? = some plain ∧
      ∀ {s s' : Lowering} {all later : List Expr} {e : Expr} {here : Lowering},
        plain.Placed info s s' all e later here → argument.Placed info s s' all e later here := by
  induction parameters generalizing es arguments question i with
  | nil => exact ⟨argument, h, fun hPlaced => hPlaced⟩
  | cons parameter parameters ih =>
    unfold planArguments at h
    split at h
    · rename_i p ps e es' plain rest hParameters
      cases hParameters
      cases i with
      | zero =>
        cases h
        refine ⟨plain, rfl, ?_⟩
        intro s s' all later e' here hPlaced
        unfold Argument.converted
        split
        · exact ⟨hPlaced.point, hPlaced.before, hPlaced.settled, hPlaced.after⟩
        · split
          · exact ⟨hPlaced.point, hPlaced.before, applyFloatBits_of_settled hPlaced.settled,
              hPlaced.after⟩
          · exact hPlaced
      | succ i =>
        rw [getElem?_cons_succ] at h ⊢
        exact ih h
    · exact ⟨argument, h, fun hPlaced => hPlaced⟩

/-- How the converted operand gives the argument: it is the argument's operand, or
a temp that one load in the code gets the characters into. -/
def Supplies (s s' : Lowering) (argument : Argument) (operand : IROperand) : Prop :=
  (argument.toCstring = false ∧ operand = argument.operand) ∨
  (argument.toCstring = true ∧ ∃ place instruction,
    s.code.length ≤ place ∧ place < s'.code.length ∧ s'.code[place]? = some instruction ∧
    instruction.op = .load ∧ instruction.dest = operand ∧ instruction.lhs = argument.operand ∧
    instruction.rhs = .int 8 ∧ instruction.floatWidth = 0 ∧ (∃ t, operand = .temp t) ∧
    ∀ p other, place < p → p < s'.code.length → s'.code[p]? = some other → operand ∉ other.writes)

def charactersLoad (s : Lowering) (operand : IROperand) : IRInstruction :=
  { op := .load, dest := .temp (tempName s.nextTempId), lhs := operand, rhs := .int 8 }

theorem coerceToCstring_run (h : coerceToCstring operand s = .ok (result, s')) :
    result = .temp (tempName s.nextTempId) ∧
      s' = { s with nextTempId := s.nextTempId + 1
                    code := s.code ++ [charactersLoad s operand] } := by
  cases h
  exact ⟨rfl, rfl⟩

theorem convertArgument_run {parameter : Ty} (hPlain : argument.toCstring = false)
    (h : convertArgument info isDirect parameter question e argument.operand s = .ok (result, s')) :
    ((argument.converted info isDirect parameter question e).toCstring = true ∧
      (argument.converted info isDirect parameter question e).operand = argument.operand ∧
      result = .temp (tempName s.nextTempId) ∧
      s' = { s with nextTempId := s.nextTempId + 1
                    code := s.code ++ [charactersLoad s argument.operand] }) ∨
    ((argument.converted info isDirect parameter question e).toCstring = false ∧
      result = (argument.converted info isDirect parameter question e).operand ∧ s' = s) := by
  unfold convertArgument at h
  unfold Argument.converted
  split at h
  · rename_i hCoerce
    rw [if_pos hCoerce]
    obtain ⟨hResult, hState⟩ := coerceToCstring_run h
    exact Or.inl ⟨rfl, rfl, hResult, hState⟩
  · rename_i hCoerce
    rw [if_neg hCoerce]
    right
    split at h
    · rename_i hDirect
      cases h
      rw [if_pos hDirect]
      exact ⟨hPlain, rfl, rfl⟩
    · rename_i hDirect
      cases h
      rw [if_neg hDirect]
      exact ⟨hPlain, rfl, rfl⟩

theorem Extends.temp_not_written {p k : Nat} (h : Extends s names s s')
    (hTemp : k < s.nextTempId) (hLo : s.code.length ≤ p) (hHi : p < s'.code.length)
    (hAt : s'.code[p]? = some instruction) :
    IROperand.temp (tempName k) ∉ instruction.writes := by
  intro hWrites
  have hWhole : (s'.code ++ [])[p]? = some instruction := by
    rw [append_nil]
    exact hAt
  have hConfined := h.confined_at hLo hHi hWhole
  obtain ⟨k', hName, hLe, -⟩ := hConfined.writes _ hWrites
  have hNumber := tempName_number hName
  omega

structure Converts (s s' : Lowering) (planned : List Argument) (converted : List IROperand) :
    Prop where
  code : ∃ added, s'.code = s.code ++ added ∧ ∀ instruction ∈ added, instruction.op = .load
  length : converted.length = planned.length
  supplies : ∀ (i : Nat) argument operand, planned[i]? = some argument →
    converted[i]? = some operand → Supplies s s' argument operand

theorem converts_self (hPlain : ∀ argument ∈ arguments, argument.toCstring = false)
    (h : (pure (arguments.map Argument.operand) : Lower (List IROperand)) s = .ok (converted, s')) :
    Converts s s' arguments converted := by
  cases h
  refine ⟨⟨[], by simp, by simp⟩, by simp, ?_⟩
  intro i argument operand hArgument hOperand
  rw [getElem?_map, hArgument] at hOperand
  exact Or.inl ⟨hPlain argument (mem_of_getElem? hArgument), (some.inj hOperand).symm⟩

theorem supplies_head {parameter : Ty} {here : Lowering} (hPlain : argument.toCstring = false)
    (h : convertArgument info isDirect parameter question e argument.operand s = .ok (result, here))
    (hLater : Extends here [] here s') :
    Supplies s s' (argument.converted info isDirect parameter question e) result := by
  rcases convertArgument_run hPlain h with ⟨hFlag, hOperand, rfl, rfl⟩ | ⟨hFlag, hResult, rfl⟩
  · right
    obtain ⟨added, hCode, -⟩ := hLater.code
    have hPlace : s'.code[s.code.length]? = some (charactersLoad s argument.operand) := by
      rw [hCode]
      simp
    have hLength : s.code.length < s'.code.length := by
      rw [hCode]
      simp
    refine ⟨hFlag, s.code.length, charactersLoad s argument.operand, le_refl _, hLength, hPlace,
      rfl, rfl, hOperand.symm, rfl, rfl, ⟨_, rfl⟩, ?_⟩
    intro p other hBehind hHi hAt
    exact hLater.temp_not_written (Nat.lt_succ_self _) (by simp; omega) hHi hAt
  · exact Or.inl ⟨hFlag, hResult⟩

theorem convertArguments_converts
    (hPlain : ∀ argument ∈ arguments, argument.toCstring = false) (h : convertArguments info
      isDirect parameters es (arguments.map Argument.operand) s = .ok (converted, s')) :
    Converts s s' (planArguments info isDirect parameters es arguments s.questions) converted := by
  induction parameters generalizing es arguments converted s with
  | nil => exact converts_self hPlain h
  | cons parameter parameters ih =>
    cases es with
    | nil => exact converts_self hPlain h
    | cons e es =>
      cases arguments with
      | nil => exact converts_self hPlain h
      | cons argument arguments =>
        rw [map_cons, convertArguments, bind_run_ok] at h
        obtain ⟨question, s₁, hQuestion, h⟩ := h
        obtain ⟨rfl, rfl⟩ : s.questions = question ∧ { s with questions := s.questions + 1 } = s₁ :=
          Prod.mk.inj (Except.ok.inj hQuestion)
        rw [bind_run_ok] at h
        obtain ⟨first, here, hFirst, h⟩ := h
        rw [bind_run_ok] at h
        obtain ⟨rest, last, hRest, h⟩ := h
        rw [pure_run_ok] at h
        obtain ⟨rfl, rfl⟩ := Prod.mk.inj h
        have hLater : Extends here [] here last :=
          ((convertArguments_lowers parameters es (arguments.map Argument.operand)).run hRest).1
        have hHead := hPlain argument mem_cons_self
        have hIh := ih (fun other hOther => hPlain other (mem_cons_of_mem _ hOther)) hRest
        -- the first conversion adds at most its load
        obtain ⟨loads, hCode, hLoads, hQuestions⟩ : ∃ loads, here.code = s.code ++ loads ∧
            (∀ instruction ∈ loads, instruction.op = .load) ∧
            here.questions = s.questions + 1 := by
          rcases convertArgument_run hHead hFirst with ⟨-, -, -, rfl⟩ | ⟨-, -, rfl⟩
          · exact ⟨[_], rfl, by simp [charactersLoad], rfl⟩
          · exact ⟨[], by simp, by simp, rfl⟩
        rw [hQuestions] at hIh
        obtain ⟨added, hAdded, hRestLoads⟩ := hIh.code
        refine ⟨⟨loads ++ added, ?_, ?_⟩, ?_, ?_⟩
        · rw [hAdded, hCode, append_assoc]
        · intro instruction hMem
          rcases mem_append.mp hMem with hLeft | hRight
          · exact hLoads instruction hLeft
          · exact hRestLoads instruction hRight
        · rw [planArguments, length_cons, length_cons, hIh.length]
        · intro i planned operand hPlanned hOperand
          cases i with
          | zero =>
            cases hPlanned
            cases hOperand
            exact supplies_head (s := { s with questions := s.questions + 1 }) hHead hFirst hLater
          | succ i =>
            rcases hIh.supplies i planned operand hPlanned hOperand with hSame | ⟨hFlag, place,
              instruction, hLo, hRest⟩
            · exact Or.inl hSame
            · refine Or.inr ⟨hFlag, place, instruction, ?_, hRest⟩
              rw [hCode] at hLo
              simp only [length_append] at hLo
              omega

end Arguments

-- ---
-- From the point to the call
-- ---

section Followed

variable {V M : Type} {machine : Machine V M} {start : IRState V M}

theorem Enclosed.append {lo mid hi : Nat} (hLeft : Enclosed machine code lo mid)
    (hRight : Enclosed machine code mid hi) (hLo : lo ≤ mid) (hHi : mid ≤ hi) :
    Enclosed machine code lo hi := by
  intro state state' hFrom hTo hStep
  by_cases hMid : state.pc < mid
  · have hIn := hLeft state state' hFrom hMid hStep
    omega
  · have hIn := hRight state state' (by omega) hTo hStep
    omega

theorem enclosed_of_loads {lo hi : Nat}
    (h : ∀ p instruction, lo ≤ p → p < hi → code[p]? = some instruction →
      instruction.op = .load) : Enclosed machine code lo hi := by
  intro state state' hLo hHi hStep
  unfold Machine.step at hStep
  split at hStep
  · cases hStep
  · rename_i instruction hAt
    have hOp := h state.pc instruction hLo hHi hAt
    rcases execute_pc hStep with hNext | ⟨hJump, -⟩
    · omega
    · rw [hOp] at hJump
      simp at hJump

variable {state : IRState V M}

theorem step_load {state' : IRState V M} {t : String}
    (hAt : code[state.pc]? = some instruction) (hOp : instruction.op = .load)
    (hDest : instruction.dest = .temp t)
    (hStep : machine.step code state = .running state') :
    machine.value state' (.temp t) = (machine.value state instruction.lhs).bind fun address =>
        (machine.value state instruction.rhs).bind fun size =>
          machine.load address size instruction.floatWidth state.memory := by
  simp only [Machine.step, hAt, Machine.execute, hOp] at hStep
  split at hStep
  · rename_i address size hAddress hSize
    obtain ⟨v, hLoad, rfl⟩ := finish_running hStep
    rw [machine.value_next, hDest, machine.value_write_self (Or.inl ⟨t, rfl⟩), hAddress, hSize]
    exact hLoad.symm
  · cases hStep

variable {here last : Lowering} {later : List Name} {x : Option Name} {argument : Argument}

section

variable (hAfter : Extends here later here last) (hSettled : Settled x here argument.operand)
  (hApart : Apart x later) (hLo : here.code.length ≤ state.pc) (hHi : state.pc < last.code.length)
include hAfter hSettled hApart hLo hHi

section

variable {state' : IRState V M} (hStep : machine.step (last.code ++ tail) state = .running state')
  (hAlone : argument.LeftAlone machine (last.code ++ tail) state state')
include hStep hAlone

theorem step_keeps_operand :
    machine.value state' argument.operand = machine.value state argument.operand := by
  unfold Machine.step at hStep
  split at hStep
  · cases hStep
  · rename_i instruction hAt
    have hConfined := hAfter.confined_at hLo hHi hAt
    cases hOperand : argument.operand with
    | temp t =>
      rw [hOperand] at hSettled
      obtain ⟨k, rfl, hLt⟩ := hSettled
      refine execute_keeps hStep ⟨?_, trivial⟩
      intro hWrites
      obtain ⟨k', hName, hLe, -⟩ := hConfined.writes _ hWrites
      have hNumber := tempName_number hName
      omega
    | symbol y =>
      rw [hOperand] at hSettled
      have hNotWritten : IROperand.symbol y ∉ instruction.writes := by
        intro hWrites
        rcases hConfined.writes _ hWrites, hSettled with
          ⟨⟨stem, k, hName, hLe, -⟩ | hBound, hIs | ⟨stem', k', hName', hLt⟩⟩
        · exact hApart.named y hIs stem k hName
        · have hNumber := labelName_number (hName.symm.trans hName')
          omega
        · exact hApart.unbound y hIs hBound
        · exact hApart.bound y hBound stem' k' hName'
      by_cases hTouch : machine.resident y = true ∧ instruction.op.touchesMemory = true
      · simp only [Machine.value, Machine.symbolValue, if_pos hTouch.1]
        rw [hAlone.1 instruction y hAt hTouch.2 hOperand hTouch.1]
      · refine execute_keeps hStep ⟨hNotWritten, hConfined.notAsm, ?_⟩
        intro hResident
        cases hOp : instruction.op.touchesMemory with
        | false => rfl
        | true => exact absurd ⟨hResident, hOp⟩ hTouch
    | _ => rfl

theorem step_keeps_value : argument.value machine state' = argument.value machine state := by
  have hOperand := step_keeps_operand hAfter hSettled hApart hLo hHi hStep hAlone
  unfold Argument.value
  rw [hOperand]
  split
  · rename_i hFlag
    cases hValue : machine.value state argument.operand with
    | none => rfl
    | some record => exact hAlone.2 record hFlag hValue
  · rfl

end

end

/-- What is known of the way from an argument's point to the call. -/
structure Followed (machine : Machine V M) (instructions : List IRInstruction)
    (start : IRState V M) (n : Nat) (argument : Argument) (place m : Nat)
    (state : IRState V M) : Prop where
  le : m ≤ n
  run : machine.run instructions m (.running start) = .running state
  pc : state.pc = argument.point
  before : ∀ k other, k < m → machine.run instructions k (.running start) = .running other →
    other.pc < argument.point
  within : Within machine instructions start m n argument.point place
  value : ∀ k other, m ≤ k → k ≤ n → machine.run instructions k (.running start) = .running other →
    argument.value machine other = argument.value machine state

variable {s : Lowering} {final : IRState V M}

/-- **The way of one argument.** -/
theorem argument_followed (hBelow : LabelsBelow s) (hBefore : Extends s names s here)
    (hAfter : Extends here later here last) (hTail : LabelsFrom last.nextLabelId tail)
    (hSettled : Settled x here argument.operand) (hApart : Apart x later)
    (hPoint : here.code.length = argument.point) (hStart : start.pc = s.code.length)
    (hReaches : ReachesFirst machine (last.code ++ tail) start n final last.code.length)
    (hAlone : ∀ k state state', k < n →
      machine.run (last.code ++ tail) k (.running start) = .running state →
      machine.run (last.code ++ tail) (k + 1) (.running start) = .running state' →
      argument.point ≤ state.pc → argument.LeftAlone machine (last.code ++ tail) state state') :
    ∃ m state, Followed machine (last.code ++ tail) start n argument last.code.length m state := by
  obtain ⟨added, hCode, hRest⟩ := LabelsFrom.extends hAfter hTail
  have hLength : here.code.length ≤ last.code.length := by
    rw [hCode, length_append]
    omega
  have hFirst : Enclosed machine (last.code ++ tail) s.code.length here.code.length := by
    rw [hCode, append_assoc]
    exact enclosed_of_extends hBelow hBefore hRest.apart
  have hSecond : Enclosed machine (last.code ++ tail) here.code.length last.code.length :=
    enclosed_of_extends (hBelow.extends hBefore) hAfter hTail.apart
  obtain ⟨m, state, -, hLe, hRun, hPc, hWithin⟩ := hFirst.first_exit (Nat.zero_le n) rfl
    (by rw [hStart]) (by
      obtain ⟨more, hMore, -⟩ := hBefore.code
      rw [hStart, hMore, length_append]
      omega) hReaches.run (by rw [hReaches.here]; exact hLength)
  have hBehind := hSecond.within hRun (by rw [hPc]) (by rw [hPc]; exact hLength) hReaches.first
  refine ⟨m, state, hLe, hRun, hPc.trans hPoint, ?_, ?_, ?_⟩
  · intro k other hk hOther
    rw [← hPoint]
    exact (hWithin k other (Nat.zero_le k) hk hOther).2
  · rw [← hPoint]
    exact hBehind
  · intro k other hm hk hOther
    have hUpTo : Within machine (last.code ++ tail) start m k here.code.length
        last.code.length := by
      intro j another hFrom hTo
      exact hBehind j another hFrom (by omega)
    refine hUpTo.keeps (argument.value machine) ?_ hm hRun hOther
    intro j before after hFrom hTo hThis hNext hLo hHi hStep
    refine step_keeps_value hAfter hSettled hApart hLo hHi hStep ?_
    exact hAlone j before after (by omega) hThis hNext (by rw [← hPoint]; exact hLo)

/-- **The operand of the call.** -/
theorem supplied_value {conv : Lowering} {m : Nat}
    (hFollowed : Followed machine (last.code ++ tail) start n argument last.code.length m state)
    (hReaches : ReachesFirst machine (last.code ++ tail) start n final last.code.length)
    (hEnclosed : Enclosed machine (last.code ++ tail) argument.point conv.code.length)
    (hPoint : argument.point ≤ conv.code.length) (hLoads : ∃ added, last.code = conv.code ++ added ∧
      ∀ instruction ∈ added, instruction.op = .load)
    (hSupplies : Supplies conv last argument operand) :
    machine.value final operand = argument.value machine state := by
  rcases hSupplies with ⟨hFlag, rfl⟩ | ⟨hFlag, place, instruction, hLo, hHi, hAt, hOp, hDest, hLhs,
    hRhs, hWidth, ⟨t, rfl⟩, hOnly⟩
  · have hValue := hFollowed.value n final hFollowed.le (le_refl n) hReaches.run
    rw [← hValue, Argument.value, hFlag]
    rfl
  · -- everything from the conversions on is a load
    have hIsLoad : ∀ p other, conv.code.length ≤ p → p < last.code.length →
        (last.code ++ tail)[p]? = some other → other.op = .load := by
      intro p other hFrom hTo hOther
      obtain ⟨added, hCode, hAll⟩ := hLoads
      rw [getElem?_append_left hTo, hCode, getElem?_append_right hFrom] at hOther
      exact hAll other (mem_of_getElem? hOther)
    have hToPlace : Enclosed machine (last.code ++ tail) argument.point place := by
      refine hEnclosed.append (enclosed_of_loads ?_) hPoint hLo
      intro p other hFrom hTo hOther
      exact hIsLoad p other hFrom (by omega) hOther
    have hToCall : Enclosed machine (last.code ++ tail) (place + 1) last.code.length := by
      refine enclosed_of_loads ?_
      intro p other hFrom hTo hOther
      exact hIsLoad p other (by omega) hTo hOther
    obtain ⟨j, reached, hFrom, hTo, hReached, hPc, -⟩ := hToPlace.first_exit hFollowed.le
      hFollowed.run (by rw [hFollowed.pc]) (by rw [hFollowed.pc]; omega) hReaches.run
      (by rw [hReaches.here]; omega)
    have hBefore : j < n := by
      refine lt_of_le_of_ne hTo ?_
      rintro rfl
      have hSame := Outcome.running.inj (hReached.symm.trans hReaches.run)
      rw [hSame, hReaches.here] at hPc
      omega
    obtain ⟨loaded, hLoaded⟩ := run_running_of_le (k := j + 1) (by omega) hReaches.run
    have hStep : machine.step (last.code ++ tail) reached = .running loaded := by
      rw [← run_succ machine hReached]
      exact hLoaded
    have hHere : (last.code ++ tail)[reached.pc]? = some instruction := by
      rw [hPc, getElem?_append_left hHi]
      exact hAt
    have hNextPc : loaded.pc = place + 1 := by
      have hStepPc := hStep
      simp only [Machine.step, hHere] at hStepPc
      rcases execute_pc hStepPc with hNext | ⟨hJump, -⟩
      · rw [hNext, hPc]
      · rw [hOp] at hJump
        simp at hJump
    have hLoadedValue : machine.value loaded (.temp t) = argument.value machine state := by
      rw [step_load hHere hOp hDest hStep, hLhs, hRhs, hWidth,
        ← hFollowed.value j reached hFrom hTo hReached, Argument.value, hFlag]
      rfl
    rw [← hLoadedValue]
    have hWithin := hToCall.within hLoaded (by rw [hNextPc]) (by rw [hNextPc]; omega) hReaches.first
    refine hWithin.keeps (fun other => machine.value other (.temp t)) ?_ (by omega) hLoaded
      hReaches.run
    intro k before after _ _ _ _ hFromPc hToPc hThisStep
    unfold Machine.step at hThisStep
    split at hThisStep
    · cases hThisStep
    · rename_i other hOther
      refine execute_keeps hThisStep ⟨?_, trivial⟩
      rw [getElem?_append_left hToPc] at hOther
      exact hOnly before.pc other (by omega) hToPc hOther

end Followed

-- ---
-- Calls
-- ---

theorem extends_questions (base : Lowering) (names : List Name) (s : Lowering) (questions : Nat) :
    Extends base names s { s with questions := questions } :=
  ⟨⟨le_refl _, le_refl _⟩, [], by simp, by simp⟩

/-- The code of a call: something before the arguments, the arguments, their
conversions from `mid` on with some questions asked between, and the call. -/
structure CallCode (info : Lookups) (s s' : Lowering) (es : List Expr) (planned : List Argument)
    (names : List Name) (first mid last : Lowering) (questions : Nat) (call : IRInstruction) :
    Prop where
  before : Extends s names s first
  placed : ∀ (i : Nat) e (argument : Argument), es[i]? = some e → planned[i]? = some argument →
    ∃ here, argument.Placed info first mid es e (es.drop (i + 1)) here
  length : planned.length = es.length
  converts : Converts { mid with questions := questions } last planned call.arguments
  after : Extends { mid with questions := questions } [] { mid with questions := questions } last
  code : s'.code = last.code ++ [call]
  labels : s'.nextLabelId = last.nextLabelId
  op : call.op = .call ∨ call.op = .callIndirect

section Calls

variable {V M : Type} {machine : Machine V M} {info : Lookups} {s s' first mid last : Lowering}
  {planned : List Argument} {questions : Nat}
  {call : IRInstruction}

theorem CallCode.passedInOrder (h : CallCode info s s' es planned names first mid last questions call)
    (hBelow : LabelsBelow s) {rest : List IRInstruction} (hRest : LabelsFrom s'.nextLabelId rest)
    (hNames : NamesApart es) {start final : IRState V M}
    (hStart : start.pc = s.code.length)
    (hReaches : ReachesFirst machine (s'.code ++ rest) start n final (s'.code.length - 1))
    (hSteps : StepsApart machine (s'.code ++ rest) planned start n) :
    PassedInOrder machine (s'.code ++ rest) s'.code planned start n final := by
  have hCode : s'.code ++ rest = last.code ++ (call :: rest) := by
    rw [h.code, append_assoc]
    rfl
  have hPlace : s'.code.length - 1 = last.code.length := by
    rw [h.code, length_append]
    simp
  have hTail : LabelsFrom last.nextLabelId (call :: rest) := by
    intro instruction hMem hOp
    rcases mem_cons.mp hMem with rfl | hLater
    · rcases h.op with hIs | hIs <;> rw [hIs] at hOp <;> cases hOp
    · rw [← h.labels]
      exact hRest instruction hLater hOp
  rw [hPlace] at hReaches
  rw [hCode] at hReaches hSteps ⊢
  refine ⟨call, ?_, h.op, h.converts.length, ?_⟩
  · rw [h.code]
    simp
  · intro i argument operand hArgument hOperand
    obtain ⟨e, he⟩ : ∃ e, es[i]? = some e := by
      have hLt : i < es.length := by
        rw [← h.length]
        exact (List.getElem_of_getElem? hArgument).1
      exact ⟨es[i], getElem?_eq_getElem hLt⟩
    obtain ⟨here, hPlaced⟩ := h.placed i e argument he hArgument
    have hBase : Before here { mid with questions := questions } :=
      ⟨hPlaced.after.before.temps, hPlaced.after.before.labels⟩
    have hToMid : Extends here (bindingsOfList (es.drop (i + 1))) here
        { mid with questions := questions } :=
      hPlaced.after.trans (extends_questions _ _ _ _)
    have hAfter : Extends here (bindingsOfList (es.drop (i + 1))) here last :=
      hToMid.trans (h.after.mono hBase (nil_subset _))
    have hBefore : Extends s (names ++ bindingsOfList es) s here :=
      (h.before.mono (Before.refl s) (subset_append_left _ _)).trans
        (hPlaced.before.mono h.before.before (subset_append_right _ _))
    obtain ⟨m, state, hFollowed⟩ := argument_followed hBelow hBefore hAfter hTail hPlaced.settled
      (hNames i e he) hPlaced.point hStart hReaches
      (fun k state state' => hSteps i argument k state state' hArgument)
    refine ⟨state, ⟨m, hFollowed.le, hFollowed.run, hFollowed.pc, hFollowed.before, ?_⟩, ?_⟩
    · intro k other hm hk hOther
      rcases Nat.lt_or_eq_of_le hk with hLess | rfl
      · exact (hFollowed.within k other hm hLess hOther).1
      · rw [Outcome.running.inj (hOther.symm.trans hReaches.run), hReaches.here, ← hPlaced.point]
        obtain ⟨added, hAdded, -⟩ := hAfter.code
        rw [hAdded, length_append]
        omega
    · -- the conversions stand behind the code of all arguments
      obtain ⟨added, hAdded, hLater⟩ := LabelsFrom.extends h.after hTail
      obtain ⟨more, hMore, -⟩ := hToMid.code
      have hEnclosed : Enclosed machine (last.code ++ (call :: rest)) argument.point
          ({ mid with questions := questions } : Lowering).code.length := by
        rw [← hPlaced.point, hAdded, append_assoc]
        exact enclosed_of_extends (hBelow.extends hBefore) hToMid hLater.apart
      refine supplied_value hFollowed hReaches hEnclosed ?_ h.converts.code
        (h.converts.supplies i argument operand hArgument hOperand)
      rw [← hPlaced.point, hMore, length_append]
      omega

theorem callCode_of_runs (questions : Nat) (call : IRInstruction) {isDirect : Bool}
    (hBefore : Extends s names s first)
    (hArguments : lowerArguments info es first = .ok (operands, mid)) (hConvert : convertArguments
      info isDirect parameters es operands { mid with questions := questions } = .ok
      (call.arguments, last)) (hOp : call.op = .call ∨ call.op = .callIndirect) :
    ∃ arguments, evaluations info es first = .ok (arguments, mid) ∧
      CallCode info s { last with code := last.code ++ [call] } es
        (planArguments info isDirect parameters es arguments questions) names first mid last
        questions call := by
  obtain ⟨arguments, hRun, rfl, hLength, hPlain, hPlaced⟩ :=
    evaluations_of_lowerArguments hArguments
  refine ⟨arguments, hRun, hBefore, ?_, ?_, ?_, ?_, rfl, rfl, hOp⟩
  · intro i e argument he hArgument
    obtain ⟨plain, hAt, hSame⟩ := planArguments_placed hArgument
    obtain ⟨here, hHere⟩ := hPlaced i e plain he hAt
    exact ⟨here, hSame hHere⟩
  · rw [planArguments_length, hLength]
  · exact convertArguments_converts hPlain hConvert
  · exact ((convertArguments_lowers parameters es _).run hConvert).1

/-- The lowering of a call to `es` has the code of a call, for the arguments that
`plan` computes. -/
def PlansCall (info : Lookups) (s s' : Lowering) (es : List Expr) (plan : Lower (List Argument)) :
    Prop :=
  ∃ planned here names first mid last questions call, plan s = .ok (planned, here) ∧
    CallCode info s s' es planned names first mid last questions call

theorem emit_run {u : Unit} (h : emit instruction s = .ok (u, s')) :
    s' = { s with code := s.code ++ [instruction] } :=
  (Prod.mk.inj (Except.ok.inj h)).2.symm

theorem lowerNamedCall_plans {f : Name}
    (h : lowerNamedCall info f es (lowerArguments info es) s = .ok (result, s')) :
    PlansCall info s s' es (namedEvaluations info f es) := by
  rw [lowerNamedCall, bind_run_ok] at h
  obtain ⟨question, s₁, hQuestion, h⟩ := h
  rw [bind_run_ok] at h
  obtain ⟨destination, first, hTemp, h⟩ := h
  rw [bind_run_ok] at h
  obtain ⟨operands, mid, hArguments, h⟩ := h
  rw [bind_run_ok] at h
  obtain ⟨converted, last, hConvert, h⟩ := h
  rw [bind_run_ok] at h
  obtain ⟨_, s₂, hEmit, h⟩ := h
  rw [pure_run_ok] at h
  obtain ⟨rfl, rfl⟩ := Prod.mk.inj h
  rw [emit_run hEmit]
  have hFirst : Extends s [] s first := by
    have hLeft : Extends s [] s s₁ := (nextQuestion_lowers.run hQuestion).1
    have hRight : Extends s₁ [] s₁ first := (makeTempOperand_lowers.run hTemp).1
    exact hLeft.trans (hRight.mono hLeft.before (List.Subset.refl _))
  have hIs : (callInstruction (info.isIndirectCall question) f destination converted).arguments =
      converted := by
    cases info.isIndirectCall question <;> rfl
  have hOp : (callInstruction (info.isIndirectCall question) f destination converted).op = .call ∨
      (callInstruction (info.isIndirectCall question) f destination converted).op =
        .callIndirect := by
    cases info.isIndirectCall question
    · exact Or.inl rfl
    · exact Or.inr rfl
  rw [← hIs] at hConvert
  obtain ⟨arguments, hRun, hCode⟩ :=
    callCode_of_runs mid.questions
      (callInstruction (info.isIndirectCall question) f destination converted)
      hFirst hArguments hConvert hOp
  refine ⟨_, mid, _, _, _, _, _, _, ?_, hCode⟩
  rw [namedEvaluations, bind_run_ok]
  refine ⟨question, s₁, hQuestion, ?_⟩
  rw [bind_run_ok]
  refine ⟨destination, first, hTemp, ?_⟩
  rw [bind_run_ok]
  exact ⟨arguments, mid, hRun, rfl⟩

theorem lowerPointerCall_plans {function : Expr} (h : lowerPointerCall info function es
      (lowerExpression info function) (lowerArguments info es) s = .ok (result, s')) :
    PlansCall info s s' es (callEvaluations info (.funcPtrCall function es)) := by
  rw [lowerPointerCall, bind_run_ok] at h
  obtain ⟨destination, s₁, hTemp, h⟩ := h
  rw [bind_run_ok] at h
  obtain ⟨pointer, first, hFunction, h⟩ := h
  rw [bind_run_ok] at h
  obtain ⟨operands, mid, hArguments, h⟩ := h
  rw [bind_run_ok] at h
  obtain ⟨t, s₂, hType, h⟩ := h
  obtain ⟨rfl, rfl⟩ : info.typeOf mid.questions function = t ∧
      { mid with questions := mid.questions + 1 } = s₂ := Prod.mk.inj (Except.ok.inj hType)
  rw [bind_run_ok] at h
  obtain ⟨converted, last, hConvert, h⟩ := h
  rw [bind_run_ok] at h
  obtain ⟨_, s₃, hEmit, h⟩ := h
  rw [pure_run_ok] at h
  obtain ⟨rfl, rfl⟩ := Prod.mk.inj h
  rw [emit_run hEmit]
  have hFirst : Extends s (bindingsOf function) s first := by
    have hLeft : Extends s (bindingsOf function) s s₁ := (makeTempOperand_lowers.run hTemp).1
    have hRight := (lowerExpression_frames function (List.Subset.refl _) s₁ s₁).run hFunction
    exact hLeft.trans (hRight.1.mono hLeft.before (List.Subset.refl _))
  obtain ⟨arguments, hRun, hCode⟩ :=
    callCode_of_runs (mid.questions + 1)
      { op := .callIndirect, dest := destination, lhs := pointer, arguments := converted }
      hFirst hArguments hConvert (Or.inr rfl)
  refine ⟨_, { mid with questions := mid.questions + 1 }, _, _, _, _, _, _, ?_, hCode⟩
  rw [callEvaluations, bind_run_ok]
  refine ⟨destination, s₁, hTemp, ?_⟩
  rw [bind_run_ok]
  refine ⟨pointer, first, hFunction, ?_⟩
  rw [bind_run_ok]
  refine ⟨arguments, mid, hRun, ?_⟩
  rw [bind_run_ok]
  exact ⟨_, _, hType, rfl⟩

theorem lowerCall_of_isCallee {f : Name} {lowered : Lower (List IROperand)}
    (h : isCallee info f = true) :
    lowerCall info f es lowered = lowerNamedCall info f es lowered := by
  simp only [isCallee, Bool.and_eq_true, bne_iff_ne, ne_eq] at h
  obtain ⟨⟨hSizeof, hAssert⟩, hConstructor⟩ := h
  rw [lowerCall, if_neg hSizeof, if_neg hAssert]
  split
  · rename_i hIs
    rw [hIs] at hConstructor
    cases hConstructor
  · rfl

theorem lowerExpression_plans (hCall : emitsCall info s.questions e = true)
    (h : lowerExpression info e s = .ok (result, s')) :
    PlansCall info s s' (callArguments e) (callEvaluations info e) := by
  cases e with
  | functionCall f es =>
    rw [lowerExpression, lowerCall_of_isCallee hCall] at h
    exact lowerNamedCall_plans h
  | methodCall object f es =>
    simp only [emitsCall, Bool.and_eq_true, bne_iff_ne, ne_eq] at hCall
    obtain ⟨⟨hSizeof, hAssert⟩, hCallee⟩ := hCall
    rw [lowerExpression, bind_run_ok] at h
    obtain ⟨receiver, s₁, hReceiver, h⟩ := h
    obtain ⟨rfl, rfl⟩ : info.typeOf s.questions object = receiver ∧
        { s with questions := s.questions + 1 } = s₁ := Prod.mk.inj (Except.ok.inj hReceiver)
    rw [if_neg hSizeof, if_neg hAssert, bind_run_ok] at h
    obtain ⟨mangled, s₂, hMethod, h⟩ := h
    have hMethodRun := hMethod
    unfold methodFunction at hMethodRun
    cases hStruct : (info.typeOf s.questions object).bind receiverStruct with
    | none =>
      rw [hStruct] at hCallee
      cases hCallee
    | some struct =>
      rw [hStruct] at hCallee hMethodRun
      rw [pure_run_ok] at hMethodRun
      cases hMethodRun
      rw [lowerCall_of_isCallee hCallee, ← lowerArguments] at h
      obtain ⟨planned, here, names, first, mid, last, questions, call, hPlan, hCode⟩ :=
        lowerNamedCall_plans h
      refine ⟨planned, here, names, first, mid, last, questions, call, ?_, ?_⟩
      · rw [callEvaluations, bind_run_ok]
        refine ⟨_, _, hReceiver, ?_⟩
        rw [bind_run_ok]
        exact ⟨_, _, hMethod, hPlan⟩
      · have hAsked : Before s { s with questions := s.questions + 1 } :=
          ⟨le_refl _, le_refl _⟩
        exact { hCode with
          before := (extends_questions s names s (s.questions + 1)).trans
            (hCode.before.mono hAsked (List.Subset.refl names)) }
  | funcPtrCall function es =>
    exact lowerPointerCall_plans h
  | _ => cases hCall

end Calls

-- ---
-- Arguments in order
-- ---

/-- **Arguments are evaluated from left to right.** Take any call expression for
which a call instruction is emitted, in a function whose labels are numbered. In
every run from the start of its code to the call, in which the steps behind an
argument leave it alone, the run comes to the end of each argument's code once,
with the code of the earlier arguments behind it and that of the later ones before
it, and the call passes what the argument had there. -/
theorem arguments_in_order {V M : Type} (machine : Machine V M) (info : Lookups) {e : Expr}
    {s s' : Lowering} {result : IROperand} (hCall : emitsCall info s.questions e = true)
    (hLower : lowerExpression info e s = .ok (result, s')) (hBelow : LabelsBelow s)
    (rest : List IRInstruction) (hRest : LabelsFrom s'.nextLabelId rest)
    (hNames : NamesApart (callArguments e)) :
    ∃ arguments here, callEvaluations info e s = .ok (arguments, here) ∧
      arguments.length = (callArguments e).length ∧
      ∀ (start final : IRState V M) (n : Nat), start.pc = s.code.length →
        ReachesFirst machine (s'.code ++ rest) start n final (s'.code.length - 1) →
        StepsApart machine (s'.code ++ rest) arguments start n →
        PassedInOrder machine (s'.code ++ rest) s'.code arguments start n final := by
  obtain ⟨planned, here, names, first, mid, last, questions, call, hPlan, hCode⟩ :=
    lowerExpression_plans hCall hLower
  refine ⟨planned, here, hPlan, hCode.length, ?_⟩
  intro start final n hStart hReaches hSteps
  exact hCode.passedInOrder hBelow hRest hNames hStart hReaches hSteps

/-! ### A global and a function that changes it -/

def bareLookups : Lookups where
  typeOf _ _ := none
  namedType _ := none
  symbolNamed _ := none
  constructorTag _ := 0
  isIndirectCall _ := false
  size _ := 8
  fieldOf _ _ := none
  variantsOf _ := []
  dataOffset _ := 8
  emitRuntimeChecks := false
  single v := v

def emptyLowering : Lowering := { nextTempId := 0, nextLabelId := 0, questions := 0, code := [] }

/-- Words, with a global `x` that a call of `inc` sets to 1. -/
def countingMachine : Machine (BitVec 64) (String → BitVec 64) :=
  { wordMachine (fun x => x == "x") with
    call := fun f _ memory =>
      some (0, if f = "inc" then Function.update memory "x" 1 else memory) }

/-- `f(x, g())`, for the function `g` that is called. -/
def passGlobal (g : Name) : Expr := .functionCall "f" [.identifier "x", .functionCall g []]

def passGlobalCode (g : Name) : List IRInstruction :=
  [{ op := .call, dest := .temp (tempName 1), text := some g },
   { op := .call, dest := .temp (tempName 0), text := some "f",
     arguments := [.symbol "x", .temp (tempName 1)] }]

def passGlobalArguments : List Argument :=
  [{ operand := .symbol "x", toCstring := false, point := 0 },
   { operand := .temp (tempName 1), toCstring := false, point := 1 }]

def passGlobalFinal (g : Name) : IRState (BitVec 64) (String → BitVec 64) :=
  { wordStart with
    pc := 1
    temps := Function.update wordStart.temps (tempName 1) (some 0)
    memory := if g = "inc" then Function.update wordStart.memory "x" 1 else wordStart.memory
    trace := [.direct g []] }

theorem passGlobal_lowered (g : Name) (hg : isCallee bareLookups g = true) :
    lowerExpression bareLookups (passGlobal g) emptyLowering = .ok (.temp (tempName 0),
        { nextTempId := 2, nextLabelId := 0, questions := 2, code := passGlobalCode g }) := by
  unfold passGlobal
  simp only [lowerArguments, lowerExpression, lowerCall_of_isCallee hg]
  rfl

theorem passGlobal_reaches (g : Name) :
    ReachesFirst countingMachine (passGlobalCode g) wordStart 1 (passGlobalFinal g) 1 := by
  refine ⟨rfl, rfl, ?_⟩
  intro k other hk hOther
  obtain rfl : k = 0 := by omega
  rw [← Outcome.running.inj hOther]
  decide

/-- `g` leaves the global alone, and `x` is passed as it was. -/
theorem arguments_in_order_unchanged :
    ∃ arguments here, callEvaluations bareLookups (passGlobal "g") emptyLowering =
        .ok (arguments, here) ∧
      PassedInOrder countingMachine (passGlobalCode "g" ++ []) (passGlobalCode "g") arguments
        wordStart 1 (passGlobalFinal "g") := by
  have hNames : NamesApart (callArguments (passGlobal "g")) := by
    intro i e he
    rcases i with _ | _ | i
    · obtain rfl := some.inj he
      refine ⟨?_, ?_, ?_⟩
      · intro y _ hMem
        cases hMem
      · rintro y hy stem k rfl
        have hShort := congrArg String.length (some.inj hy)
        have hStem : "ir_".length = 3 := rfl
        have hOne : "x".length = 1 := rfl
        rw [labelName, String.length_append, String.length_append, String.length_append] at hShort
        omega
      · intro y hy
        cases hy
    · obtain rfl := some.inj he
      refine ⟨?_, ?_, ?_⟩
      · intro y hy
        cases hy
      · intro y hy
        cases hy
      · intro y hy
        cases hy
    · cases he
  obtain ⟨arguments, here, hPlan, -, hAll⟩ := arguments_in_order countingMachine bareLookups
    (e := passGlobal "g") (by decide) (passGlobal_lowered "g" (by decide))
    (by intro instruction hMem; cases hMem) [] (by intro instruction hMem; cases hMem) hNames
  refine ⟨arguments, here, hPlan, hAll wordStart (passGlobalFinal "g") 1 rfl ?_ ?_⟩
  · rw [append_nil]
    exact passGlobal_reaches "g"
  · obtain rfl : passGlobalArguments = arguments := (Prod.mk.inj (Except.ok.inj hPlan)).1
    intro i argument k state state' hArgument hk hState hState' _
    obtain rfl : k = 0 := by omega
    obtain rfl := Outcome.running.inj hState
    obtain rfl := Outcome.running.inj hState'
    refine ⟨?_, ?_⟩
    · intro instruction x _ _ _ _
      rfl
    · intro record hFlag
      rcases i with _ | _ | i
      · cases hArgument
        cases hFlag
      · cases hArgument
        cases hFlag
      · cases hArgument

/-- **A global is passed as it is at the call.** `f(x, inc())` with `x = 0`: the
first argument was evaluated to 0, and 1 is passed for it. -/
theorem not_passedInOrder_global : ∃ s' arguments here,
      lowerExpression bareLookups (passGlobal "inc") emptyLowering = .ok (.temp (tempName 0), s') ∧
      callEvaluations bareLookups (passGlobal "inc") emptyLowering = .ok (arguments, here) ∧
      ReachesFirst countingMachine s'.code wordStart 1 (passGlobalFinal "inc") (s'.code.length - 1) ∧
      ¬ PassedInOrder countingMachine s'.code s'.code arguments wordStart 1
        (passGlobalFinal "inc") := by
  refine ⟨_, passGlobalArguments, _, passGlobal_lowered "inc" (by decide), rfl,
    passGlobal_reaches "inc", ?_⟩
  rintro ⟨call, hLast, -, -, hAll⟩
  cases hLast
  obtain ⟨state, ⟨m, hm, hRun, hPc, -⟩, hValue⟩ := hAll 0 _ _ rfl rfl
  -- the run stands before the call of `inc` only at its start
  match m with
  | 0 =>
    cases hRun
    exact absurd hValue (by decide)
  | 1 =>
    cases hRun
    cases hPc
  | m + 2 => omega

end Mettle.IR
