import Mettle.IR.Blocks
import Mettle.IR.Moved

/-!
# Mettle — code that is written anew, and what it loads and stores

A pass that inserts and drops instructions writes the function anew: every instruction becomes
a list of instructions, which may be empty. `expanded` is the new code; the instructions for
place `i` stand in it from `placeOf i` on, and a label is found where its instruction went.

The second half says what a run loads and stores on its way (`Machine.Performs`), and when the
accesses of one function are those of another (`performs_simulated`): every step of the one is
done by some steps of the other, and a step that takes none goes to the next instruction, so
that the other cannot fall behind for ever.
-/

namespace Mettle.IR

open List Option

-- ---
-- Every instruction becomes a list
-- ---

/-- The new code, the first instruction standing at place `start`. -/
def expandedFrom (emit : Nat → IRInstruction → List IRInstruction) (start : Nat) :
    List IRInstruction → List IRInstruction
  | [] => []
  | c :: rest => emit start c ++ expandedFrom emit (start + 1) rest

def expanded (emit : Nat → IRInstruction → List IRInstruction) (code : List IRInstruction) :
    List IRInstruction :=
  expandedFrom emit 0 code

/-- Where the instructions for place `i` begin. -/
def placeOf (emit : Nat → IRInstruction → List IRInstruction) (code : List IRInstruction)
    (i : Nat) : Nat :=
  (expanded emit (code.take i)).length

variable {i : Nat} {c : IRInstruction}

section Expanded

variable {emit : Nat → IRInstruction → List IRInstruction} {code : List IRInstruction}

theorem expandedFrom_append (first second : List IRInstruction) (start : Nat) :
    expandedFrom emit start (first ++ second) =
      expandedFrom emit start first ++ expandedFrom emit (start + first.length) second := by
  induction first generalizing start with
  | nil => rfl
  | cons c first ih =>
    rw [cons_append, expandedFrom, expandedFrom, ih, append_assoc, length_cons,
      Nat.add_right_comm, Nat.add_assoc]

theorem expandedFrom_congr {emit' : Nat → IRInstruction → List IRInstruction} (start : Nat)
    (rest : List IRInstruction) (hSame : ∀ i c, start ≤ i → emit i c = emit' i c) :
    expandedFrom emit start rest = expandedFrom emit' start rest := by
  induction rest generalizing start with
  | nil => rfl
  | cons c rest ih =>
    rw [expandedFrom, expandedFrom, hSame start c (Nat.le_refl _),
      ih (start + 1) fun i d hLe => hSame i d (by omega)]

theorem expandedFrom_same (start : Nat) (rest : List IRInstruction)
    (hSame : ∀ i c, start ≤ i → i < start + rest.length → emit i c = [c]) :
    expandedFrom emit start rest = rest := by
  induction rest generalizing start with
  | nil => rfl
  | cons c rest ih =>
    rw [length_cons] at hSame
    rw [expandedFrom, hSame start c (Nat.le_refl _) (by omega),
      ih (start + 1) fun i d hLow hHigh => hSame i d (by omega) (by omega)]
    rfl

@[simp] theorem placeOf_zero : placeOf emit code 0 = 0 := rfl

theorem placeOf_succ (hc : code[i]? = some c) :
    placeOf emit code (i + 1) = placeOf emit code i + (emit i c).length := by
  obtain ⟨hLt, rfl⟩ := List.getElem_of_getElem? hc
  have hTake : code.take (i + 1) = code.take i ++ [code[i]] := List.take_succ_eq_append_getElem hLt
  rw [placeOf, hTake, expanded, expandedFrom_append, List.length_append, List.length_take,
    Nat.min_eq_left (Nat.le_of_lt hLt), expandedFrom, expandedFrom, List.append_nil, Nat.zero_add]
  rfl

/-- **Where an instruction went.** -/
theorem expanded_block (hc : code[i]? = some c) :
    BlockAt (expanded emit code) (placeOf emit code i) (emit i c) := by
  obtain ⟨hLt, rfl⟩ := List.getElem_of_getElem? hc
  have hCode : code = code.take i ++ code[i] :: code.drop (i + 1) := by
    rw [List.getElem_cons_drop, List.take_append_drop]
  have hLength : (code.take i).length = i := by
    rw [List.length_take, Nat.min_eq_left (Nat.le_of_lt hLt)]
  have hExpanded : expanded emit code = expanded emit (code.take i) ++ emit i code[i] ++
      expandedFrom emit (i + 1) (code.drop (i + 1)) := by
    conv_lhs => rw [hCode]
    rw [expanded, expandedFrom_append, hLength, expandedFrom, Nat.zero_add, ← List.append_assoc]
    rfl
  rw [hExpanded]
  exact blockAt_append _ _ _

theorem expanded_end (hi : code[i]? = none) :
    (expanded emit code)[placeOf emit code i]? = none := by
  have hLe : code.length ≤ i := getElem?_eq_none_iff.mp hi
  rw [placeOf, take_of_length_le hLe]
  exact getElem?_eq_none (Nat.le_refl _)

/-- **Where a label went**: `offset` is its distance from the place of its instruction. -/
theorem expanded_labelIndex {offset : Nat → Nat} {name : String}
    (hEmit : ∀ i c, code[i]? = some c → (emit i c).findIdx? (·.isLabel name) =
      if c.isLabel name then some (offset i) else none) :
    labelIndex (expanded emit code) name =
      (labelIndex code name).map fun i => placeOf emit code i + offset i := by
  suffices hAll : ∀ (rest : List IRInstruction) (start : Nat),
      (∀ i c, rest[i]? = some c → (emit (start + i) c).findIdx? (·.isLabel name) =
        if c.isLabel name then some (offset (start + i)) else none) →
      labelIndex (expandedFrom emit start rest) name = (labelIndex rest name).map fun i =>
        (expandedFrom emit start (rest.take i)).length + offset (start + i) by
    have hWhole := hAll code 0 (by simpa only [Nat.zero_add] using hEmit)
    simp only [Nat.zero_add] at hWhole
    exact hWhole
  intro rest
  induction rest with
  | nil => exact fun _ _ => rfl
  | cons c rest ih =>
    intro start hRest
    have hHead := hRest 0 c rfl
    have hTail := ih (start + 1) fun i d hd => by
      rw [Nat.add_right_comm]
      exact hRest (i + 1) d hd
    unfold labelIndex at hTail ⊢
    change (emit start c).findIdx? (fun d => d.op == .label && d.text == some name) = _ at hHead
    rw [expandedFrom, findIdx?_append, hHead, findIdx?_cons]
    change _ = Option.map _ (if c.isLabel name = true then _ else _)
    split
    · rw [some_or, map_some, take_zero]
      simp [expandedFrom]
    · rw [Option.none_or, hTail, Option.map_map, Option.map_map]
      congr 1
      funext i
      rw [Function.comp_apply, Function.comp_apply, take_succ_cons, expandedFrom,
        length_append, Nat.add_right_comm start 1 i, ← Nat.add_assoc start i 1]
      omega

end Expanded

-- ---
-- Loads and stores
-- ---

/-- An access to memory through a pointer. -/
inductive Access (V : Type)
  | load (address size : V)
  | store (address value size : V)
  deriving DecidableEq

variable {V M : Type} {machine : Machine V M}

def Machine.accessesAt (machine : Machine V M) (state : IRState V M) (c : IRInstruction) :
    List (Access V) :=
  match c.op with
  | .load =>
    match machine.value state c.lhs, machine.value state c.rhs with
    | some address, some size => [.load address size]
    | _, _ => []
  | .store =>
    match machine.value state c.dest, machine.value state c.lhs, machine.value state c.rhs with
    | some address, some v, some size => [.store address v size]
    | _, _, _ => []
  | _ => []

/-- `n` steps from the start, with the accesses they perform. -/
inductive Machine.Performs (machine : Machine V M) (code : List IRInstruction)
    (start : IRState V M) : Nat → List (Access V) → IRState V M → Prop
  | start : Machine.Performs machine code start 0 [] start
  | step {n : Nat} {accesses : List (Access V)} {s t : IRState V M} {c : IRInstruction} :
    Machine.Performs machine code start n accesses s → code[s.pc]? = some c →
    machine.execute code s c = .running t →
    Machine.Performs machine code start (n + 1) (accesses ++ machine.accessesAt s c) t

section Performs

variable {code new : List IRInstruction} {start s t : IRState V M} {n m : Nat}
  {before behind : List (Access V)}

theorem Machine.Performs.one (hc : code[s.pc]? = some c)
    (hStep : machine.execute code s c = .running t) :
    machine.Performs code s 1 (machine.accessesAt s c) t :=
  .step .start hc hStep

theorem Machine.Performs.trans (h : machine.Performs code start n before s)
    (h' : machine.Performs code s m behind t) :
    machine.Performs code start (n + m) (before ++ behind) t := by
  induction h' with
  | start =>
    rw [append_nil]
    exact h
  | step _ hc hStep ih =>
    rw [← append_assoc]
    exact .step ih hc hStep

theorem Machine.Performs.pure (hc : code[s.pc]? = some c) (hOp : c.op.isPure = true) {v : V}
    (hValue : machine.compute s c = some v) :
    machine.Performs code s 1 [] (machine.write s c.dest v).next := by
  have hNone : machine.accessesAt s c = [] := by
    unfold Machine.accessesAt
    cases hCase : c.op <;> rw [hCase] at hOp <;> first | rfl | exact absurd hOp (by decide)
  rw [← hNone]
  refine .one hc ?_
  rw [execute_pure hOp, hValue]
  rfl

theorem Machine.Performs.pc_le (h : machine.Performs code start n before s)
    (hStart : start.pc ≤ code.length) : s.pc ≤ code.length := by
  cases h with
  | start => exact hStart
  | step _ hc hStep =>
    rcases execute_pc hStep with hPc | ⟨-, name, -, hLabel⟩
    · rw [hPc]
      exact (List.getElem_of_getElem? hc).1
    · obtain ⟨⟨c, hAt, -⟩, -⟩ := labelIndex_iff.mp hLabel
      exact Nat.le_of_lt (List.getElem_of_getElem? hAt).1

theorem Machine.Performs.shorter (h : machine.Performs code start n before s) (hLe : m ≤ n) :
    ∃ accesses t, machine.Performs code start m accesses t := by
  induction h with
  | start =>
    obtain rfl := Nat.le_zero.mp hLe
    exact ⟨_, _, .start⟩
  | @step n _ _ _ _ hRun hc hStep ih =>
    rcases Nat.lt_or_ge n m with hLt | hGe
    · obtain rfl : m = n + 1 := by omega
      exact ⟨_, _, .step hRun hc hStep⟩
    · exact ih hGe

def Machine.Visits (machine : Machine V M) (code : List IRInstruction) (start s : IRState V M) :
    Prop :=
  ∃ n accesses, machine.Performs code start n accesses s

def Outcome.running? : Outcome V M → Option (IRState V M)
  | .running state => some state
  | _ => none

/-- The run comes to an end within `n` steps, and every state that it reaches passes the test. -/
def Machine.passes (machine : Machine V M) (code : List IRInstruction) (test : IRState V M → Bool) :
    Nat → IRState V M → Bool
  | 0, _ => false
  | n + 1, s => test s &&
    match machine.step code s with
    | .running t => Machine.passes machine code test n t
    | _ => true

theorem Machine.Visits.passed {test : IRState V M → Bool} {N : Nat}
    (hPasses : machine.passes code test N start = true) (h : machine.Visits code start s) :
    test s = true := by
  obtain ⟨n, accesses, hPerforms⟩ := h
  -- the rest of the run passes too
  suffices hRest : ∃ N, machine.passes code test N s = true by
    obtain ⟨N, hRest⟩ := hRest
    cases N with
    | zero => cases hRest
    | succ N => exact (Bool.and_eq_true_iff.mp hRest).1
  induction hPerforms with
  | start => exact ⟨N, hPasses⟩
  | step _ hc hStep ih =>
    obtain ⟨N, hRest⟩ := ih
    cases N with
    | zero => cases hRest
    | succ N =>
      have hNext := (Bool.and_eq_true_iff.mp hRest).2
      rw [step_at hc, hStep] at hNext
      exact ⟨N, hNext⟩

/-- **The same loads and stores.** -/
theorem performs_simulated {Rel : IRState V M → IRState V M → Prop} {e : IRState V M}
    (hStep : ∀ s t e c, machine.Visits code start s → Rel s e → code[s.pc]? = some c →
      machine.execute code s c = .running t →
      ∃ k e', machine.Performs new e k (machine.accessesAt s c) e' ∧ Rel t e' ∧
        (k = 0 → t.pc = s.pc + 1))
    (hStart : Rel start e) (h : machine.Performs code start n before s) :
    ∃ k e', machine.Performs new e k before e' ∧ Rel s e' ∧ n ≤ k * (code.length + 1) + s.pc := by
  induction h with
  | start => exact ⟨0, e, .start, hStart, Nat.zero_le _⟩
  | @step n accesses s t c hRun hc hExecute ih =>
    obtain ⟨k, e', hPerforms, hRel, hCount⟩ := ih
    obtain ⟨d, e'', hMore, hRel', hIdle⟩ := hStep s t e' c ⟨n, accesses, hRun⟩ hRel hc hExecute
    refine ⟨k + d, e'', hPerforms.trans hMore, hRel', ?_⟩
    have hLt := (List.getElem_of_getElem? hc).1
    cases d with
    | zero =>
      rw [show k + 0 = k from rfl]
      omega
    | succ d =>
      calc n + 1 ≤ k * (code.length + 1) + s.pc + 1 := Nat.succ_le_succ hCount
        _ ≤ k * (code.length + 1) + (code.length + 1) := by omega
        _ = (k + 1) * (code.length + 1) := (Nat.succ_mul _ _).symm
        _ ≤ (k + (d + 1)) * (code.length + 1) := Nat.mul_le_mul_right _ (by omega)
        _ ≤ (k + (d + 1)) * (code.length + 1) + t.pc := Nat.le_add_right _ _

end Performs

end Mettle.IR
