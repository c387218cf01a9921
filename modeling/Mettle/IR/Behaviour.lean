import Mathlib.Order.Nat
import Mettle.IR.Paths

/-!
# Mettle — functions with the same behaviour

What the first of two instruction lists does from a state the second does too:
it returns the same value with the same memory and trace of calls, and visits the
same memories and traces on the way. So if it runs forever, the second makes the
same calls. Unless the first gets stuck, the second does nothing else.

A rewriting in place keeps the positions of the instructions, and the two lists
are compared at positions where they meet again. Between two such positions one
of them may take other steps, as long as these are silent: nops, labels and
jumps.
-/

namespace Mettle.IR

variable {V M : Type} {machine : Machine V M} {old new : List IRInstruction}

-- ---
-- Behaviour
-- ---

def Returns (machine : Machine V M) (instructions : List IRInstruction) (start : IRState V M)
    (value : Option V) (memory : M) (trace : List (CallEvent V)) : Prop :=
  ∃ n state, machine.run instructions n (.running start) = .returned value state ∧
    state.memory = memory ∧ state.trace = trace

def Visits (machine : Machine V M) (instructions : List IRInstruction) (start : IRState V M)
    (memory : M) (trace : List (CallEvent V)) : Prop :=
  ∃ n state, machine.run instructions n (.running start) = .running state ∧
    state.memory = memory ∧ state.trace = trace

def NotStuck (machine : Machine V M) (instructions : List IRInstruction)
    (start : IRState V M) : Prop :=
  ∀ n state, machine.run instructions n (.running start) ≠ .stuck state

structure BehavesAs (machine : Machine V M) (old new : List IRInstruction)
    (start : IRState V M) : Prop where
  returns : ∀ value memory trace, Returns machine old start value memory trace →
    Returns machine new start value memory trace
  visits : ∀ memory trace, Visits machine old start memory trace →
    Visits machine new start memory trace
  notStuck : NotStuck machine old start → NotStuck machine new start
  returnsOnly : NotStuck machine old start → ∀ value memory trace,
    Returns machine new start value memory trace → Returns machine old start value memory trace
  visitsOnly : NotStuck machine old start → ∀ memory trace,
    Visits machine new start memory trace → Visits machine old start memory trace

def SameBehaviour (machine : Machine V M) (old new : List IRInstruction) : Prop :=
  ∀ start, start.pc = 0 → BehavesAs machine old new start

theorem SameBehaviour.refl (machine : Machine V M) (instructions : List IRInstruction) :
    SameBehaviour machine instructions instructions := by
  intro start _
  exact ⟨fun _ _ _ h => h, fun _ _ h => h, fun h => h, fun _ _ _ _ h => h, fun _ _ _ h => h⟩

theorem SameBehaviour.trans {middle : List IRInstruction}
    (hLeft : SameBehaviour machine old middle) (hRight : SameBehaviour machine middle new) :
    SameBehaviour machine old new := by
  intro start hStart
  have hFirst := hLeft start hStart
  have hSecond := hRight start hStart
  refine ⟨?_, ?_, ?_, ?_, ?_⟩
  · intro value memory trace h
    exact hSecond.returns value memory trace (hFirst.returns value memory trace h)
  · intro memory trace h
    exact hSecond.visits memory trace (hFirst.visits memory trace h)
  · intro hNotStuck
    exact hSecond.notStuck (hFirst.notStuck hNotStuck)
  · intro hNotStuck value memory trace h
    exact hFirst.returnsOnly hNotStuck value memory trace
      (hSecond.returnsOnly (hFirst.notStuck hNotStuck) value memory trace h)
  · intro hNotStuck memory trace h
    exact hFirst.visitsOnly hNotStuck memory trace
      (hSecond.visitsOnly (hFirst.notStuck hNotStuck) memory trace h)

-- ---
-- Stretches of a run
-- ---

/-- `k` steps lead from one state to another, and change neither memory nor trace
before the last one. -/
def Advances (machine : Machine V M) (instructions : List IRInstruction) (k : Nat)
    (state state' : IRState V M) : Prop :=
  machine.run instructions k (.running state) = .running state' ∧
    ∀ j, j < k → ∃ middle, machine.run instructions j (.running state) = .running middle ∧
      middle.memory = state.memory ∧ middle.trace = state.trace

def Fails (machine : Machine V M) (instructions : List IRInstruction)
    (state : IRState V M) : Prop :=
  ∃ k stuck, machine.run instructions (k + 1) (.running state) = .stuck stuck ∧
    ∀ j, j < k + 1 → ∃ middle, machine.run instructions j (.running state) = .running middle ∧
      middle.memory = state.memory ∧ middle.trace = state.trace

/-- The two lists meet again: after one or more steps of each they are in the same
state, or they both return, or the old one gets stuck. -/
def Meets (machine : Machine V M) (old new : List IRInstruction) (Inv : Nat → Prop)
    (state : IRState V M) : Prop :=
  Fails machine old state ∨
  (∃ value last, machine.step old state = .returned value last ∧
    machine.step new state = .returned value last) ∨
  ∃ k k' next, Inv next.pc ∧ Advances machine old (k + 1) state next ∧
    Advances machine new (k' + 1) state next

/-- The same for states that need not be equal: after one or more steps of each the states are
related again. -/
def MeetsBy (machine : Machine V M) (old new : List IRInstruction)
    (R : IRState V M → IRState V M → Prop) (state state' : IRState V M) : Prop :=
  Fails machine old state ∨
  (∃ value last last', machine.step old state = .returned value last ∧
    machine.step new state' = .returned value last' ∧
    last.memory = last'.memory ∧ last.trace = last'.trace) ∨
  ∃ k k' next next', R next next' ∧ Advances machine old (k + 1) state next ∧
    Advances machine new (k' + 1) state' next'

variable {k : Nat} {stuck : IRState V M} {code : List IRInstruction}

section Meeting

variable {R : IRState V M → IRState V M → Prop} {state : IRState V M}

theorem run_one (code : List IRInstruction) (state : IRState V M) :
    machine.run code 1 (.running state) = machine.step code state := by
  rw [Machine.run]
  cases machine.step code state <;> rfl

theorem Advances.run_cases {n : Nat} {next : IRState V M}
    (h : Advances machine code (k + 1) state next) :
    (∃ middle, machine.run code n (.running state) = .running middle ∧
      middle.memory = state.memory ∧ middle.trace = state.trace) ∨
    ∃ m, m < n ∧ n = k + 1 + m ∧ machine.run code n (.running state) =
        machine.run code m (.running next) := by
  rcases Nat.lt_or_ge n (k + 1) with hBefore | hBehind
  · exact Or.inl (h.2 n hBefore)
  · obtain ⟨m, rfl⟩ := Nat.exists_eq_add_of_le hBehind
    refine Or.inr ⟨m, by omega, rfl, ?_⟩
    rw [run_add, h.1]

theorem run_succ_of_returned {value : Option V} {last : IRState V M}
    (h : machine.step code state = .returned value last) (n : Nat) :
    machine.run code (n + 1) (.running state) = .returned value last := by
  rw [Machine.run, h]
  cases n <;> rfl

theorem NotStuck.next {next : IRState V M} (hNotStuck : NotStuck machine code state)
    (h : machine.run code k (.running state) = .running next) :
    NotStuck machine code next := by
  intro n stuck hStuck
  refine hNotStuck (k + n) stuck ?_
  rw [run_add, h, hStuck]

theorem run_of_stuck {outcome : Outcome V M} {n : Nat}
    (h : machine.run code k outcome = .stuck stuck) (hLe : k ≤ n) :
    machine.run code n outcome = .stuck stuck := by
  obtain ⟨m, rfl⟩ := Nat.exists_eq_add_of_le hLe
  rw [run_add, h]
  cases m <;> rfl

section

variable (hSame : ∀ state state', R state state' → state.memory = state'.memory ∧ state.trace =
      state'.trace)
  (hMeets : ∀ state state', R state state' → MeetsBy machine old new R state state')
include hSame hMeets

theorem meetsBy_forward (n : Nat) : ∀ state state', R state state' →
      (∀ value last, machine.run old n (.running state) = .returned value last →
        Returns machine new state' value last.memory last.trace) ∧
      (∀ last, machine.run old n (.running state) = .running last →
        Visits machine new state' last.memory last.trace) := by
  induction n using Nat.strong_induction_on with
  | _ n ih =>
    intro state state' hR
    obtain ⟨hMemoryEq, hTraceEq⟩ := hSame state state' hR
    -- before the lists meet again the old one has changed nothing
    have hSilent : ∀ {middle : IRState V M}, middle.memory = state.memory →
        middle.trace = state.trace → Visits machine new state' middle.memory middle.trace := by
      intro middle hMemory hTrace
      exact ⟨0, state', rfl, hMemoryEq.symm.trans hMemory.symm, hTraceEq.symm.trans hTrace.symm⟩
    rcases hMeets state state' hR with ⟨k, stuck, hStuck, hBefore⟩ |
      ⟨value, last, last', hOld, hNew, hMemoryLast, hTraceLast⟩ |
      ⟨k, k', next, next', hNextR, hOld, hNew⟩
    · rcases Nat.lt_or_ge n (k + 1) with hLt | hGe
      · obtain ⟨middle, hRun, hMemory, hTrace⟩ := hBefore n hLt
        rw [hRun]
        refine ⟨(fun _ _ h => by cases h), ?_⟩
        intro last h
        cases h
        exact hSilent hMemory hTrace
      · rw [run_of_stuck hStuck hGe]
        exact ⟨(fun _ _ h => by cases h), (fun _ h => by cases h)⟩
    · cases n with
      | zero =>
        refine ⟨(fun _ _ h => by cases h), ?_⟩
        intro last' h
        cases h
        exact hSilent rfl rfl
      | succ n =>
        rw [run_succ_of_returned hOld n]
        refine ⟨?_, (fun _ h => by cases h)⟩
        intro value' last'' h
        cases h
        refine ⟨1, last', ?_, hMemoryLast.symm, hTraceLast.symm⟩
        exact hNew
    · rcases hOld.run_cases (n := n) with ⟨middle, hRun, hMemory, hTrace⟩ | ⟨m, hm, -, hRun⟩
      · rw [hRun]
        refine ⟨(fun _ _ h => by cases h), ?_⟩
        intro last h
        cases h
        exact hSilent hMemory hTrace
      · rw [hRun]
        obtain ⟨hReturns, hVisits⟩ := ih m hm next next' hNextR
        refine ⟨?_, ?_⟩
        · intro value last h
          obtain ⟨n', last', hRun', hEq⟩ := hReturns value last h
          refine ⟨k' + 1 + n', last', ?_, hEq⟩
          rw [run_add, hNew.1, hRun']
        · intro last h
          obtain ⟨n', last', hRun', hEq⟩ := hVisits last h
          refine ⟨k' + 1 + n', last', ?_, hEq⟩
          rw [run_add, hNew.1, hRun']

theorem meetsBy_backward (n : Nat) : ∀ state state', R state state' → NotStuck machine old state →
      (∀ value last, machine.run new n (.running state') = .returned value last →
        Returns machine old state value last.memory last.trace) ∧
      (∀ last, machine.run new n (.running state') = .running last →
        Visits machine old state last.memory last.trace) ∧
      ∀ last, machine.run new n (.running state') ≠ .stuck last := by
  induction n using Nat.strong_induction_on with
  | _ n ih =>
    intro state state' hR hNotStuck
    obtain ⟨hMemoryEq, hTraceEq⟩ := hSame state state' hR
    rcases hMeets state state' hR with ⟨k, stuck, hStuck, -⟩ |
      ⟨value, last, last', hOld, hNew, hMemoryLast, hTraceLast⟩ |
      ⟨k, k', next, next', hNextR, hOld, hNew⟩
    · exact absurd hStuck (hNotStuck (k + 1) stuck)
    · cases n with
      | zero =>
        refine ⟨(fun _ _ h => by cases h), ?_, (fun _ h => by cases h)⟩
        intro last' h
        cases h
        exact ⟨0, state, rfl, hMemoryEq, hTraceEq⟩
      | succ n =>
        rw [run_succ_of_returned hNew n]
        refine ⟨?_, (fun _ h => by cases h), (fun _ h => by cases h)⟩
        intro value' last'' h
        cases h
        refine ⟨1, last, ?_, hMemoryLast, hTraceLast⟩
        exact hOld
    · rcases hNew.run_cases (n := n) with ⟨middle, hRun, hMemory, hTrace⟩ | ⟨m, hm, -, hRun⟩
      · rw [hRun]
        refine ⟨(fun _ _ h => by cases h), ?_, (fun _ h => by cases h)⟩
        intro last h
        cases h
        exact ⟨0, state, rfl, hMemoryEq.trans hMemory.symm, hTraceEq.trans hTrace.symm⟩
      · rw [hRun]
        obtain ⟨hReturns, hVisits, hStuck⟩ := ih m hm next next' hNextR (hNotStuck.next hOld.1)
        refine ⟨?_, ?_, hStuck⟩
        · intro value last h
          obtain ⟨n', last', hRun', hEq⟩ := hReturns value last h
          refine ⟨k + 1 + n', last', ?_, hEq⟩
          rw [run_add, hOld.1, hRun']
        · intro last h
          obtain ⟨n', last', hRun', hEq⟩ := hVisits last h
          refine ⟨k + 1 + n', last', ?_, hEq⟩
          rw [run_add, hOld.1, hRun']

end

/-- **Related states behave alike.** -/
theorem behavesAs_of_meetsBy (R : IRState V M → IRState V M → Prop)
    (hSame : ∀ state state', R state state' →
      state.memory = state'.memory ∧ state.trace = state'.trace)
    (hMeets : ∀ state state', R state state' → MeetsBy machine old new R state state')
    {start : IRState V M} (hStart : R start start) : BehavesAs machine old new start := by
  have hForward := fun n => meetsBy_forward hSame hMeets n start start hStart
  have hBackward := fun n => meetsBy_backward hSame hMeets n start start hStart
  refine ⟨?_, ?_, ?_, ?_, ?_⟩
  · rintro value memory trace ⟨n, last, hRun, rfl, rfl⟩
    exact (hForward n).1 value last hRun
  · rintro memory trace ⟨n, last, hRun, rfl, rfl⟩
    exact (hForward n).2 last hRun
  · intro hNotStuck n
    exact (hBackward n hNotStuck).2.2
  · rintro hNotStuck value memory trace ⟨n, last, hRun, rfl, rfl⟩
    exact (hBackward n hNotStuck).1 value last hRun
  · rintro hNotStuck memory trace ⟨n, last, hRun, rfl, rfl⟩
    exact (hBackward n hNotStuck).2.1 last hRun

/-- **Lists that meet again behave alike.** -/
theorem sameBehaviour_of_meets (Inv : Nat → Prop) (hEntry : Inv 0)
    (hMeets : ∀ state, Inv state.pc → Meets machine old new Inv state) :
    SameBehaviour machine old new := by
  intro start hStart
  refine behavesAs_of_meetsBy (fun state state' => state = state' ∧ Inv state.pc) ?_ ?_ ?_
  · rintro state state' ⟨rfl, -⟩
    exact ⟨rfl, rfl⟩
  · rintro state state' ⟨rfl, hInv⟩
    rcases hMeets state hInv with hFails | ⟨value, last, hOld, hNew⟩ |
      ⟨k, k', next, hNextInv, hOld, hNew⟩
    · exact Or.inl hFails
    · exact Or.inr (Or.inl ⟨value, last, last, hOld, hNew, rfl, rfl⟩)
    · exact Or.inr (Or.inr ⟨k, k', next, next, ⟨rfl, hNextInv⟩, hOld, hNew⟩)
  · refine ⟨rfl, ?_⟩
    rw [hStart]
    exact hEntry

end Meeting

-- ---
-- Silent steps
-- ---

/-- Nops, labels and jumps lead from `p` to `q`. -/
inductive Silent (instructions : List IRInstruction) : Nat → Nat → Prop
  | refl (p : Nat) : Silent instructions p p
  | next {p q : Nat} {c : IRInstruction} : instructions[p]? = some c →
    (c.op = .nop ∨ c.op = .label) → Silent instructions (p + 1) q → Silent instructions p q
  | jump {p q r : Nat} {c : IRInstruction} {name : String} : instructions[p]? = some c →
    c.op = .jump → c.text = some name → labelIndex instructions name = some r →
    Silent instructions r q → Silent instructions p q

variable {q r : Nat}

theorem Silent.trans {p : Nat} (h : Silent code p q) (h' : Silent code q r) : Silent code p r := by
  induction h with
  | refl p => exact h'
  | next hAt hOp _ ih => exact .next hAt hOp (ih h')
  | jump hAt hOp hText hIndex _ ih => exact .jump hAt hOp hText hIndex (ih h')

theorem Silent.advances (machine : Machine V M) {p : Nat}
    (h : Silent code p q) (state : IRState V M) :
    ∃ k, machine.run code k (.running { state with pc := p }) = .running { state with pc := q } ∧
      ∀ j, j ≤ k → ∃ r, machine.run code j (.running { state with pc := p }) =
        .running { state with pc := r } := by
  -- one step more in front of a stretch
  have hCons : ∀ {p p' q : Nat},
      machine.step code { state with pc := p } = .running { state with pc := p' } →
      (∃ k, machine.run code k (.running { state with pc := p' }) =
          .running { state with pc := q } ∧
        ∀ j, j ≤ k → ∃ r, machine.run code j (.running { state with pc := p' }) =
          .running { state with pc := r }) →
      ∃ k, machine.run code k (.running { state with pc := p }) = .running { state with pc := q } ∧
        ∀ j, j ≤ k → ∃ r, machine.run code j (.running { state with pc := p }) =
          .running { state with pc := r } := by
    rintro p p' q hStep ⟨k, hRun, hAll⟩
    refine ⟨k + 1, ?_, ?_⟩
    · rw [Machine.run, hStep, hRun]
    · intro j hj
      cases j with
      | zero => exact ⟨p, rfl⟩
      | succ j =>
        rw [Machine.run, hStep]
        exact hAll j (by omega)
  induction h with
  | refl p => exact ⟨0, rfl, fun j hj => ⟨p, by rw [Nat.le_zero.mp hj]; rfl⟩⟩
  | next hAt hOp _ ih =>
    refine hCons ?_ ih
    rw [Machine.step]
    simp only [hAt]
    rcases hOp with hOp | hOp <;> rw [Machine.execute, hOp] <;> rfl
  | jump hAt hOp hText hIndex _ ih =>
    refine hCons ?_ ih
    rw [Machine.step]
    simp only [hAt]
    rw [Machine.execute, hOp]
    rw [hText, jumpTo, hIndex]

section Local

variable {Inv : Nat → Prop} {state : IRState V M}

theorem fails_of_step (h : machine.step code state = .stuck stuck) :
    Fails machine code state := by
  refine ⟨0, stuck, ?_, ?_⟩
  · rw [run_one, h]
  · intro j hj
    obtain rfl : j = 0 := by omega
    exact ⟨state, rfl, rfl, rfl⟩

theorem meets_of_same (hSame : machine.step new state = machine.step old state)
    (hInv : ∀ next, machine.step old state = .running next → Inv next.pc) :
    Meets machine old new Inv state := by
  cases hStep : machine.step old state with
  | stuck stuck => exact Or.inl (fails_of_step hStep)
  | returned value last => exact Or.inr (Or.inl ⟨value, last, hStep, hSame.trans hStep⟩)
  | running next =>
    refine Or.inr (Or.inr ⟨0, 0, next, hInv next hStep, ⟨?_, ?_⟩, ⟨?_, ?_⟩⟩)
    · rw [run_one, hStep]
    · intro j hj
      obtain rfl : j = 0 := by omega
      exact ⟨state, rfl, rfl, rfl⟩
    · rw [run_one, hSame, hStep]
    · intro j hj
      obtain rfl : j = 0 := by omega
      exact ⟨state, rfl, rfl, rfl⟩

section

variable (hStep : machine.step code state = .running { state with pc := r })
  (hSilent : Silent code r q)
include hStep hSilent

theorem advances_of_silent : ∃ k, Advances machine code (k + 1) state { state with pc := q } := by
  obtain ⟨k, hRun, hAll⟩ := hSilent.advances machine state
  refine ⟨k, ?_, ?_⟩
  · rw [Machine.run, hStep, hRun]
  · intro j hj
    cases j with
    | zero => exact ⟨state, rfl, rfl, rfl⟩
    | succ j =>
      obtain ⟨p, hp⟩ := hAll j (by omega)
      refine ⟨{ state with pc := p }, ?_, rfl, rfl⟩
      rw [Machine.run, hStep, hp]

theorem fails_of_silent (hStuck : machine.step code { state with pc := q } = .stuck stuck) :
    Fails machine code state := by
  obtain ⟨k, hRun, hBefore⟩ := advances_of_silent hStep hSilent
  refine ⟨k + 1, stuck, ?_, ?_⟩
  · rw [run_add, hRun, run_one, hStuck]
  · intro j hj
    rcases Nat.lt_or_ge j (k + 1) with hLt | hGe
    · exact hBefore j hLt
    · obtain rfl : j = k + 1 := by omega
      exact ⟨_, hRun, rfl, rfl⟩

end

theorem meets_of_silent {r' : Nat} (hOld : machine.step old state = .running { state with pc := r })
    (hNew : machine.step new state = .running { state with pc := r' }) (hOldSilent : Silent old r q)
    (hNewSilent : Silent new r' q) (hInv : Inv q) :
    Meets machine old new Inv state := by
  obtain ⟨k, hk⟩ := advances_of_silent hOld hOldSilent
  obtain ⟨k', hk'⟩ := advances_of_silent hNew hNewSilent
  exact Or.inr (Or.inr ⟨k, k', _, hInv, hk, hk'⟩)

end Local

end Mettle.IR
