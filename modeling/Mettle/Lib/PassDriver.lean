import Mathlib.Logic.Function.Basic
import Mathlib.Tactic.SplitIfs

/-!
# Mettle — rounds of passes that remember what is clean

A list of passes rewrites a value in rounds. A driver counts the changes (`version`) and notes
for each pass the count at which it last found nothing to do (`cleanVersion`); while the count
stays the same the pass is not run again. A pass may also be left out because a quick look at
the value, taken at the start of the round, says that it has nothing to do; then it is noted as
clean as well.

The first kind of skipping is always right: the value is the one the pass has seen
(`CleanInv`). The second is right if the quick look is.
-/

namespace Mettle.Lib

variable {α : Type*}

/-- A pass: the new value and whether it reports a change, or a failure. -/
abbrev Pass (α : Type*) := α → Option (α × Bool)

/-- The pass leaves `a` as it is, and says so. -/
def Pass.Idle (pass : Pass α) (a : α) : Prop := pass a = some (a, false)

/-- A pass that reports no change has made none. -/
def Pass.Honest (pass : Pass α) : Prop := ∀ a a', pass a = some (a', false) → a' = a

instance [DecidableEq α] (pass : Pass α) (a : α) : Decidable (pass.Idle a) :=
  inferInstanceAs (Decidable (_ = _))

-- ---
-- The driver that skips
-- ---

structure DriveState (α : Type*) where
  value : α
  changed : Bool
  version : Nat
  cleanVersion : Nat → Nat

def DriveState.start (a : α) : DriveState α :=
  { value := a, changed := false, version := 1, cleanVersion := fun _ => 0 }

def DriveState.markClean (state : DriveState α) (i : Nat) : DriveState α :=
  { state with cleanVersion := Function.update state.cleanVersion i state.version }

/-- What a pass that has run leaves behind. -/
def DriveState.record (state : DriveState α) (i : Nat) : α × Bool → DriveState α
  | (value, true) => { state with value, changed := true, version := state.version + 1 }
  | (value, false) => { state with value }.markClean i

/-- Run pass `i`, unless it is clean. -/
def drivePass (pass : Pass α) (i : Nat) (state : DriveState α) : Option (DriveState α) :=
  if state.cleanVersion i = state.version then some state
  else (pass state.value).map (state.record i)

/-- Run pass `i` if it is enabled; one that is not counts as clean. -/
def drivePassIf (enabled : Bool) (pass : Pass α) (i : Nat) (state : DriveState α) :
    Option (DriveState α) :=
  if enabled then drivePass pass i state else some (state.markClean i)

/-- The passes of a round, in order. -/
def driveList (passes : Nat → Pass α) (enabled : Nat → Bool) :
    List Nat → DriveState α → Option (DriveState α)
  | [], state => some state
  | i :: rest, state =>
    (drivePassIf (enabled i) (passes i) i state).bind (driveList passes enabled rest)

/-- Rounds, until one of them changes nothing. -/
def drive (passes : Nat → Pass α) (enabled : α → Nat → Bool) (order : List Nat) :
    Nat → DriveState α → Option α
  | 0, state => some state.value
  | rounds + 1, state =>
    (driveList passes (enabled state.value) order { state with changed := false }).bind
      fun next => if next.changed then drive passes enabled order rounds next else some next.value

-- ---
-- The driver that does not
-- ---

/-- Run a pass on a value, and note whether anything has changed so far. -/
def runPass (pass : Pass α) (current : α × Bool) : Option (α × Bool) :=
  (pass current.1).map fun (value, changed) => (value, changed || current.2)

def runList (passes : Nat → Pass α) : List Nat → α × Bool → Option (α × Bool)
  | [], current => some current
  | i :: rest, current => (runPass (passes i) current).bind (runList passes rest)

/-- Rounds of all passes, until one of them changes nothing. -/
def runRounds (passes : Nat → Pass α) (order : List Nat) : Nat → α → Option α
  | 0, value => some value
  | rounds + 1, value =>
    (runList passes order (value, false)).bind fun (next, changed) =>
      if changed then runRounds passes order rounds next else some next

-- ---
-- Clean passes have nothing to do
-- ---

/-- A pass that is noted as clean at the present version is idle on the present value. -/
def CleanInv (passes : Nat → Pass α) (state : DriveState α) : Prop :=
  ∀ i, state.cleanVersion i ≤ state.version ∧
    (state.cleanVersion i = state.version → (passes i).Idle state.value)

theorem cleanInv_start (passes : Nat → Pass α) (a : α) : CleanInv passes (.start a) :=
  fun _ => ⟨Nat.zero_le 1, nofun⟩

variable {state : DriveState α}

variable {passes : Nat → Pass α}

variable {i : Nat}

theorem CleanInv.markClean (hClean : CleanInv passes state) (hIdle : (passes i).Idle state.value) :
    CleanInv passes (state.markClean i) := by
  intro j
  by_cases hEq : j = i
  · subst hEq
    refine ⟨?_, fun _ => hIdle⟩
    exact Nat.le_of_eq (Function.update_self j _ _)
  · have hSame : (state.markClean i).cleanVersion j = state.cleanVersion j :=
      Function.update_of_ne hEq _ _
    rw [hSame]
    exact hClean j

theorem CleanInv.change (hClean : CleanInv passes state) (value : α) :
    CleanInv passes { state with value, changed := true, version := state.version + 1 } := by
  intro j
  have hLe := (hClean j).1
  refine ⟨Nat.le_succ_of_le hLe, fun hEq => ?_⟩
  have : state.cleanVersion j = state.version + 1 := hEq
  omega

/-- The value and the change flag, which both drivers have. -/
def DriveState.current (state : DriveState α) : α × Bool := (state.value, state.changed)

theorem runPass_idle {pass : Pass α} (h : pass.Idle state.value) :
    runPass pass state.current = some state.current := by
  rw [runPass, DriveState.current, h]
  rfl

theorem drivePassIf_runPass {enabled : Bool} (hClean : CleanInv passes state)
    (hHonest : (passes i).Honest) (hIdle : enabled = false → (passes i).Idle state.value) :
    (drivePassIf enabled (passes i) i state).map DriveState.current =
        runPass (passes i) state.current ∧
      ∀ next, drivePassIf enabled (passes i) i state = some next → CleanInv passes next := by
  unfold drivePassIf drivePass
  split_ifs with hEnabled hNoted
  · have hSkipped : (passes i).Idle state.value := (hClean i).2 hNoted
    refine ⟨(runPass_idle hSkipped).symm, ?_⟩
    rintro next ⟨⟩
    exact hClean
  · cases hRun : passes i state.value with
    | none =>
      refine ⟨?_, nofun⟩
      rw [runPass, DriveState.current, hRun]
      rfl
    | some result =>
      obtain ⟨value, changed⟩ := result
      refine ⟨?_, ?_⟩
      · rw [runPass, DriveState.current, hRun]
        cases changed <;> rfl
      · rintro next ⟨⟩
        cases changed with
        | true => exact hClean.change value
        | false =>
          obtain rfl := hHonest _ _ hRun
          exact hClean.markClean hRun
  · have hSkipped := hIdle (Bool.eq_false_iff.mpr hEnabled)
    refine ⟨(runPass_idle hSkipped).symm, ?_⟩
    rintro next ⟨⟩
    exact hClean.markClean hSkipped

-- ---
-- Runs
-- ---

/-- Every pass that is not enabled when its turn comes has nothing to do. -/
def ListSkipsIdle (passes : Nat → Pass α) (enabled : Nat → Bool) : List Nat → DriveState α → Prop
  | [], _ => True
  | i :: rest, state =>
    (enabled i = false → (passes i).Idle state.value) ∧
      ∀ next, drivePassIf (enabled i) (passes i) i state = some next →
        ListSkipsIdle passes enabled rest next

/-- The same in all rounds that are run. -/
def SkipsIdle (passes : Nat → Pass α) (enabled : α → Nat → Bool) (order : List Nat) :
    Nat → DriveState α → Prop
  | 0, _ => True
  | rounds + 1, state =>
    ListSkipsIdle passes (enabled state.value) order { state with changed := false } ∧
      ∀ next, driveList passes (enabled state.value) order { state with changed := false } =
          some next → next.changed = true → SkipsIdle passes enabled order rounds next

variable {enabled : Nat → Bool} {order : List Nat}

section

variable (hHonest : ∀ i ∈ order, (passes i).Honest)
include hHonest

theorem driveList_runList (hClean : CleanInv passes state)
    (hSkips : ListSkipsIdle passes enabled order state) :
    (driveList passes enabled order state).map DriveState.current =
        runList passes order state.current ∧
      ∀ next, driveList passes enabled order state = some next → CleanInv passes next := by
  induction order generalizing state with
  | nil =>
    refine ⟨rfl, ?_⟩
    rintro next ⟨⟩
    exact hClean
  | cons i rest ih =>
    obtain ⟨hSame, hKept⟩ :=
      drivePassIf_runPass hClean (hHonest i List.mem_cons_self) hSkips.1
    rw [driveList, runList, ← hSame]
    cases hStep : drivePassIf (enabled i) (passes i) i state with
    | none => exact ⟨rfl, nofun⟩
    | some next =>
      exact ih (fun j hMem => hHonest j (List.mem_cons_of_mem i hMem)) (hKept next hStep)
        (hSkips.2 next hStep)

/-- **Skipping what has nothing to do does not change the result.** -/
theorem drive_runRounds {enabled : α → Nat → Bool} (rounds : Nat) (hClean : CleanInv passes state)
    (hSkips : SkipsIdle passes enabled order rounds state) :
    drive passes enabled order rounds state = runRounds passes order rounds state.value := by
  induction rounds generalizing state with
  | zero => rfl
  | succ rounds ih =>
    have hRestart : CleanInv passes { state with changed := false } := hClean
    obtain ⟨hSame, hKept⟩ := driveList_runList hHonest hRestart hSkips.1
    have hFlag : DriveState.current { state with changed := false } = (state.value, false) := rfl
    rw [drive, runRounds, ← hFlag, ← hSame]
    cases hRound : driveList passes (enabled state.value) order { state with changed := false } with
    | none => rfl
    | some next =>
      show (if next.changed then _ else _) = if next.changed then _ else _
      split_ifs with hChanged
      · exact ih (hKept next hRound) (hSkips.2 next hRound hChanged)
      · rfl

theorem drive_eq_runRounds {enabled : α → Nat → Bool} (rounds : Nat) (a : α)
    (hSkips : SkipsIdle passes enabled order rounds (.start a)) :
    drive passes enabled order rounds (.start a) = runRounds passes order rounds a :=
  drive_runRounds hHonest rounds (cleanInv_start passes a) hSkips

end

-- ---
-- Values that a run does not leave
-- ---

/-- The passes keep to the values `S`. -/
def ClosedUnder (passes : Nat → Pass α) (order : List Nat) (S : α → Prop) : Prop :=
  ∀ a, S a → ∀ i ∈ order, ∀ b c, passes i a = some (b, c) → S b

section
variable {passes passes' : Nat → Pass α} {order : List Nat} {S : α → Prop}

theorem drivePassIf_mem {enabled : Bool} {next : DriveState α}
    (hClosed : ClosedUnder passes order S) (hMem : i ∈ order) (hState : S state.value)
    (hNext : drivePassIf enabled (passes i) i state = some next) : S next.value := by
  unfold drivePassIf drivePass at hNext
  split_ifs at hNext
  · cases hNext
    exact hState
  · obtain ⟨⟨value, changed⟩, hRun, rfl⟩ := Option.map_eq_some_iff.mp hNext
    have hValue := hClosed _ hState i hMem value changed hRun
    cases changed <;> exact hValue
  · cases hNext
    exact hState

variable {indices : List Nat}

section

variable (hClosed : ClosedUnder passes order S)
include hClosed

theorem driveList_mem (hSub : ∀ i ∈ indices, i ∈ order) {next : DriveState α}
    (hState : S state.value) (hNext : driveList passes enabled indices state = some next) :
    S next.value := by
  induction indices generalizing state with
  | nil =>
    cases hNext
    exact hState
  | cons i rest ih =>
    obtain ⟨middle, hStep, hRest⟩ := Option.bind_eq_some_iff.mp hNext
    exact ih (fun j hMem => hSub j (List.mem_cons_of_mem i hMem))
      (drivePassIf_mem hClosed (hSub i List.mem_cons_self) hState hStep) hRest

section

variable (hAgree : ∀ a, S a → ∀ i ∈ order, passes i a = passes' i a)
include hAgree

theorem driveList_congr (hSub : ∀ i ∈ indices, i ∈ order) (hState : S state.value) :
    driveList passes enabled indices state = driveList passes' enabled indices state := by
  induction indices generalizing state with
  | nil => rfl
  | cons i rest ih =>
    have hFirst := hSub i List.mem_cons_self
    have hSame : drivePassIf (enabled i) (passes i) i state =
        drivePassIf (enabled i) (passes' i) i state := by
      rw [drivePassIf, drivePassIf, drivePass, drivePass, hAgree _ hState i hFirst]
    rw [driveList, driveList, ← hSame]
    cases hStep : drivePassIf (enabled i) (passes i) i state with
    | none => rfl
    | some next =>
      exact ih (fun j hMem => hSub j (List.mem_cons_of_mem i hMem))
        (drivePassIf_mem hClosed hFirst hState hStep)

theorem drive_congr {enabled : α → Nat → Bool} (rounds : Nat) (hState : S state.value) :
    drive passes enabled order rounds state = drive passes' enabled order rounds state := by
  induction rounds generalizing state with
  | zero => rfl
  | succ rounds ih =>
    have hStart : S ({ state with changed := false } : DriveState α).value := hState
    rw [drive, drive, ← driveList_congr hClosed hAgree (fun _ => id) hStart]
    cases hRound : driveList passes (enabled state.value) order { state with changed := false } with
    | none => rfl
    | some next =>
      have hNext := driveList_mem hClosed (fun _ => id) hStart hRound
      show (if next.changed then _ else _) = if next.changed then _ else _
      rw [ih hNext]

end

theorem listSkipsIdle_of_closed
    (hIdle : ∀ b, S b → ∀ i ∈ order, enabled i = false → (passes i).Idle b)
    (hSub : ∀ i ∈ indices, i ∈ order) (hState : S state.value) :
    ListSkipsIdle passes enabled indices state := by
  induction indices generalizing state with
  | nil => trivial
  | cons i rest ih =>
    have hFirst := hSub i List.mem_cons_self
    refine ⟨hIdle _ hState i hFirst, fun next hStep => ?_⟩
    exact ih (fun j hMem => hSub j (List.mem_cons_of_mem i hMem))
      (drivePassIf_mem hClosed hFirst hState hStep)

theorem skipsIdle_of_closed {enabled : α → Nat → Bool}
    (hIdle : ∀ a b, S a → S b → ∀ i ∈ order, enabled a i = false → (passes i).Idle b) (rounds : Nat)
    (hState : S state.value) :
    SkipsIdle passes enabled order rounds state := by
  induction rounds generalizing state with
  | zero => trivial
  | succ rounds ih =>
    have hStart : S ({ state with changed := false } : DriveState α).value := hState
    refine ⟨listSkipsIdle_of_closed hClosed (fun b => hIdle _ b hState) (fun _ => id) hStart, ?_⟩
    intro next hRound _
    exact ih (driveList_mem hClosed (fun _ => id) hStart hRound)

theorem runList_mem (hSub : ∀ i ∈ indices, i ∈ order) {current next : α × Bool}
    (hCurrent : S current.1) (hNext : runList passes indices current = some next) : S next.1 := by
  induction indices generalizing current with
  | nil =>
    cases hNext
    exact hCurrent
  | cons i rest ih =>
    obtain ⟨middle, hStep, hRest⟩ := Option.bind_eq_some_iff.mp hNext
    obtain ⟨⟨value, changed⟩, hRun, rfl⟩ := Option.map_eq_some_iff.mp hStep
    exact ih (fun j hMem => hSub j (List.mem_cons_of_mem i hMem))
      (hClosed _ hCurrent i (hSub i List.mem_cons_self) value changed hRun) hRest

theorem runList_congr (hAgree : ∀ a, S a → ∀ i ∈ order, passes i a = passes' i a)
    (hSub : ∀ i ∈ indices, i ∈ order) {current : α × Bool} (hCurrent : S current.1) :
    runList passes indices current = runList passes' indices current := by
  induction indices generalizing current with
  | nil => rfl
  | cons i rest ih =>
    have hFirst := hSub i List.mem_cons_self
    rw [runList, runList, runPass, runPass, ← hAgree _ hCurrent i hFirst]
    cases hRun : passes i current.1 with
    | none => rfl
    | some result =>
      exact ih (fun j hMem => hSub j (List.mem_cons_of_mem i hMem))
        (hClosed _ hCurrent i hFirst result.1 result.2 hRun)

theorem runRounds_congr (hAgree : ∀ a, S a → ∀ i ∈ order, passes i a = passes' i a) (rounds : Nat)
    {a : α} (ha : S a) : runRounds passes order rounds a = runRounds passes' order rounds a := by
  induction rounds generalizing a with
  | zero => rfl
  | succ rounds ih =>
    have hStart : S (a, false).1 := ha
    rw [runRounds, runRounds, ← runList_congr hClosed hAgree (fun _ => id) hStart]
    cases hRound : runList passes order (a, false) with
    | none => rfl
    | some next =>
      have hNext := runList_mem hClosed (fun _ => id) hStart hRound
      show (if next.2 then _ else _) = if next.2 then _ else _
      rw [ih hNext]

end

end

end Mettle.Lib
