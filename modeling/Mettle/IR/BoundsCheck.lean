import Mettle.IR.ArgumentOrder
import Mettle.IR.Words

/-!
# Mettle — bounds checks

The check in front of an access to a fixed-size array compares the index with the number of
elements, and branches to a trap if it is not less. Nothing compares the index with 0, and the
comparison of the back end is a signed one.
-/

namespace Mettle.IR

open List

-- ---
-- The code of a check
-- ---

/-- What `emitBoundsCheck` appends, with the numbers of its temp and of its first label. -/
def boundsCheckCode (index : IROperand) (size temp label : Nat) : List IRInstruction :=
  [{ op := .binary, dest := .temp (tempName temp), lhs := index, rhs := .int size,
     text := some "<" },
   { op := .branchZero, lhs := .temp (tempName temp),
     text := some (labelName "trap_bounds" label) },
   { op := .jump, text := some (labelName "in_bounds" (label + 1)) },
   { op := .label, text := some (labelName "trap_bounds" label) },
   { op := .call, text := some "mettle_crash_trap_ex",
     arguments := [.int 2, .string "Fatal error: Array index out of bounds", index, .int size] },
   { op := .label, text := some (labelName "in_bounds" (label + 1)) }]

theorem emitBoundsCheck_run {info : Lookups} {index : IROperand} {size : Nat} {s s' : Lowering}
    (hChecks : info.emitRuntimeChecks = true)
    (h : emitBoundsCheck info index size s = .ok ((), s')) :
    s'.code = s.code ++ boundsCheckCode index size s.nextTempId s.nextLabelId := by
  rw [emitBoundsCheck, if_pos hChecks] at h
  cases Except.ok.inj h
  simp [boundsCheckCode]

-- ---
-- Where a run comes to
-- ---

section Runs

variable {V M : Type} {machine : Machine V M} {code : List IRInstruction} {state : IRState V M}

/-- The run comes to `place` without having been at `other`. -/
def ComesTo (machine : Machine V M) (code : List IRInstruction) (state : IRState V M)
    (place other : Nat) : Prop :=
  ∃ k last, machine.run code k (.running state) = .running last ∧ last.pc = place ∧
    ∀ j middle, j ≤ k → machine.run code j (.running state) = .running middle → middle.pc ≠ other

theorem ComesTo.not_both {place other : Nat} (h : ComesTo machine code state place other) :
    ¬ ComesTo machine code state other place := by
  rintro ⟨k', last', hRun', hPlace', hAvoids'⟩
  obtain ⟨k, last, hRun, hPlace, hAvoids⟩ := h
  rcases Nat.le_total k k' with hLe | hLe
  · exact hAvoids' k last hLe hRun hPlace
  · exact hAvoids k' last' hLe hRun' hPlace'

theorem ComesTo.here {place other : Nat} (hPlace : state.pc = place) (hNe : place ≠ other) :
    ComesTo machine code state place other := by
  refine ⟨0, state, rfl, hPlace, ?_⟩
  intro j middle hj hMiddle
  obtain rfl := Nat.le_zero.mp hj
  cases hMiddle
  rwa [hPlace]

theorem ComesTo.step {place other : Nat} {next : IRState V M}
    (hStep : machine.step code state = .running next) (hNe : state.pc ≠ other)
    (h : ComesTo machine code next place other) : ComesTo machine code state place other := by
  obtain ⟨k, last, hRun, hPlace, hAvoids⟩ := h
  have hSucc : ∀ n, machine.run code (n + 1) (.running state) =
      machine.run code n (.running next) := fun n => by rw [Machine.run, hStep]
  refine ⟨k + 1, last, (hSucc k).trans hRun, hPlace, ?_⟩
  intro j middle hj hMiddle
  cases j with
  | zero =>
    cases hMiddle
    exact hNe
  | succ j => exact hAvoids j middle (Nat.le_of_succ_le_succ hj) ((hSucc j).symm.trans hMiddle)

end Runs

-- ---
-- The check
-- ---

section Check

variable {M : Type} {machine : Machine (BitVec 64) M} {info : Lookups} {s s' : Lowering}
  {index : IROperand} {size : Nat} {state : IRState (BitVec 64) M} {w : BitVec 64}

/-- The access behind the check is reached with an index of an element only, and the trap with any
other. -/
def ChecksBounds (machine : Machine (BitVec 64) M) (s s' : Lowering) (rest : List IRInstruction)
    (state : IRState (BitVec 64) M) (w : BitVec 64) (size : Nat) : Prop :=
  (ComesTo machine (s'.code ++ rest) state s'.code.length (s.code.length + 4) →
    0 ≤ w.toInt ∧ w.toInt < size) ∧
  (¬ (0 ≤ w.toInt ∧ w.toInt < size) →
    ComesTo machine (s'.code ++ rest) state (s.code.length + 4) s'.code.length)

theorem bounds_check_goes (hWords : SignedWords machine) (hChecks : info.emitRuntimeChecks = true)
    (hBelow : LabelsBelow s) (hEmit : emitBoundsCheck info index size s = .ok ((), s'))
    (hPc : state.pc = s.code.length) (hIndex : machine.value state index = some w)
    (rest : List IRInstruction) :
    if w.slt (BitVec.ofInt 64 size) then
      ComesTo machine (s'.code ++ rest) state s'.code.length (s.code.length + 4)
    else ComesTo machine (s'.code ++ rest) state (s.code.length + 4) s'.code.length := by
  have hCode := emitBoundsCheck_run hChecks hEmit
  have hLength : s'.code.length = s.code.length + 6 := by
    rw [hCode, length_append]
    rfl
  have hAt : ∀ j, j < 6 → (s'.code ++ rest)[s.code.length + j]? =
      (boundsCheckCode index size s.nextTempId s.nextLabelId)[j]? := by
    intro j hj
    rw [hCode, append_assoc, getElem?_append_right (Nat.le_add_right _ _),
      Nat.add_sub_cancel_left, getElem?_append_left hj]
  have hOld : ∀ k, s.nextLabelId ≤ k → LabelsIn (· ≠ k) s.code := fun k hk =>
    hBelow.mono fun k' hk' hSame => absurd hk' (by omega)
  have hTrap : labelIndex (s'.code ++ rest) (labelName "trap_bounds" s.nextLabelId) =
      some (s.code.length + 3) := by
    have hBefore : LabelsIn (· ≠ s.nextLabelId) (s.code ++
        (boundsCheckCode index size s.nextTempId s.nextLabelId).take 3) := by
      rw [labelsIn_append]
      refine ⟨hOld _ le_rfl, ?_⟩
      intro c hMem hOp
      simp only [boundsCheckCode, take_succ_cons, take_zero, mem_cons,
        not_mem_nil, or_false] at hMem
      rcases hMem with rfl | rfl | rfl <;> cases hOp
    have h := labelIndex_of_labelsIn "trap_bounds" hBefore
      ((boundsCheckCode index size s.nextTempId s.nextLabelId).drop 4 ++ rest)
    rw [hCode]
    simpa [boundsCheckCode] using h
  have hOk : labelIndex (s'.code ++ rest) (labelName "in_bounds" (s.nextLabelId + 1)) =
      some (s.code.length + 5) := by
    have hBefore : LabelsIn (· ≠ s.nextLabelId + 1) (s.code ++
        (boundsCheckCode index size s.nextTempId s.nextLabelId).take 5) := by
      rw [labelsIn_append]
      refine ⟨hOld _ (Nat.le_succ _), ?_⟩
      intro c hMem hOp
      simp only [boundsCheckCode, take_succ_cons, take_zero, mem_cons,
        not_mem_nil, or_false] at hMem
      rcases hMem with rfl | rfl | rfl | rfl | rfl
      · cases hOp
      · cases hOp
      · cases hOp
      · exact ⟨_, _, rfl, by omega⟩
      · cases hOp
    have h := labelIndex_of_labelsIn "in_bounds" hBefore rest
    rw [hCode]
    simpa [boundsCheckCode] using h
  -- the comparison
  have hLess : machine.binary "<" 0 w (BitVec.ofInt 64 size) =
      some (if w.slt (BitVec.ofInt 64 size) then 1 else 0) := hWords.binary "<" w _
  obtain ⟨compared, hCompared⟩ : ∃ c, c = (machine.write state (.temp (tempName s.nextTempId))
      (if w.slt (BitVec.ofInt 64 size) then 1 else 0)).next := ⟨_, rfl⟩
  have hCompare : machine.step (s'.code ++ rest) state = .running compared := by
    have hHere := hAt 0 (by decide)
    rw [Nat.add_zero, ← hPc] at hHere
    rw [step_at hHere, hCompared]
    simp only [Machine.execute, Machine.compute, Machine.finish]
    rw [hIndex]
    simp only [Machine.value, hWords.int]
    rw [Machine.operate_plain machine rfl]
    simp only [IRInstruction.floatWidth, Bool.false_eq_true, if_false, hLess]
  have hPc' : compared.pc = s.code.length + 1 := by
    rw [hCompared]
    exact congrArg (· + 1) hPc
  have hBit : machine.value compared (.temp (tempName s.nextTempId)) =
      some (if w.slt (BitVec.ofInt 64 size) then 1 else 0) := by
    rw [hCompared]
    exact Function.update_self _ _ _
  have hBranch : machine.step (s'.code ++ rest) compared =
      if w.slt (BitVec.ofInt 64 size) then .running { compared with pc := s.code.length + 2 }
      else .running { compared with pc := s.code.length + 3 } := by
    have hHere := hAt 1 (by decide)
    rw [← hPc'] at hHere
    rw [step_at hHere]
    simp only [Machine.execute, hBit, hWords.isZero, jumpTo, hTrap]
    cases w.slt (BitVec.ofInt 64 size) with
    | true => simp [IRState.next, hPc']
    | false => simp
  have hFirst : state.pc ≠ s.code.length + 4 ∧ state.pc ≠ s'.code.length := by omega
  have hSecond : compared.pc ≠ s.code.length + 4 ∧ compared.pc ≠ s'.code.length := by omega
  cases hSlt : w.slt (BitVec.ofInt 64 size) with
  | true =>
    rw [hSlt, if_pos rfl] at hBranch
    refine ComesTo.step hCompare hFirst.1 (ComesTo.step hBranch hSecond.1 ?_)
    have hJump : machine.step (s'.code ++ rest) { compared with pc := s.code.length + 2 } =
        .running { compared with pc := s.code.length + 5 } := by
      rw [step_at (hAt 2 (by decide))]
      simp only [Machine.execute, jumpTo, hOk]
    have hLabel : machine.step (s'.code ++ rest) { compared with pc := s.code.length + 5 } =
        .running { compared with pc := s.code.length + 6 } := by
      rw [step_at (hAt 5 (by decide))]
      rfl
    refine ComesTo.step hJump (by dsimp only; omega) (ComesTo.step hLabel (by dsimp only; omega) ?_)
    exact ComesTo.here hLength.symm (by omega)
  | false =>
    rw [hSlt, if_neg Bool.false_ne_true] at hBranch
    refine ComesTo.step hCompare hFirst.2 (ComesTo.step hBranch hSecond.2 ?_)
    have hLabel : machine.step (s'.code ++ rest) { compared with pc := s.code.length + 3 } =
        .running { compared with pc := s.code.length + 4 } := by
      rw [step_at (hAt 3 (by decide))]
      rfl
    refine ComesTo.step hLabel (by dsimp only; omega) ?_
    exact ComesTo.here rfl (by omega)

/-- **Bounds checks.** The check lets through exactly the indices that are less than the size as
signed words. So it keeps the access to the elements if and only if the index is not negative, or
is not less than the size. -/
theorem bounds_check_iff (hWords : SignedWords machine) (hChecks : info.emitRuntimeChecks = true)
    (hBelow : LabelsBelow s) (hEmit : emitBoundsCheck info index size s = .ok ((), s'))
    (hPc : state.pc = s.code.length) (hIndex : machine.value state index = some w)
    (rest : List IRInstruction) :
    ChecksBounds machine s s' rest state w size ↔
      0 ≤ w.toInt ∨ w.slt (BitVec.ofInt 64 size) = false := by
  have hGoes := bounds_check_goes hWords hChecks hBelow hEmit hPc hIndex rest
  cases hSlt : w.slt (BitVec.ofInt 64 size) with
  | true =>
    rw [hSlt, if_pos rfl] at hGoes
    have hLess : w.toInt < size := by
      rw [BitVec.slt, decide_eq_true_eq, BitVec.toInt_ofInt] at hSlt
      have hMod : (size : Int).bmod (2 ^ 64) ≤ size := by
        rw [Int.bmod_def]
        split <;> omega
      omega
    simp only [Bool.true_eq_false, or_false]
    constructor
    · intro hChecked
      exact (hChecked.1 hGoes).1
    · intro hNonneg
      exact ⟨fun _ => ⟨hNonneg, hLess⟩, fun hOut => absurd ⟨hNonneg, hLess⟩ hOut⟩
  | false =>
    rw [hSlt, if_neg Bool.false_ne_true] at hGoes
    simp only [or_true, iff_true]
    exact ⟨fun hAccess => absurd hGoes hAccess.not_both, fun _ => hGoes⟩

end Check

-- ---
-- An array of four elements
-- ---

def checkedLookups : Lookups := { bareLookups with emitRuntimeChecks := true }

/-- The lowering behind the check of `i` against four elements. -/
def fourChecked : Lowering :=
  { nextTempId := 1, nextLabelId := 2, questions := 0, code := boundsCheckCode (.symbol "i") 4 0 0 }

/-- The start, with a value for `i`. -/
def indexedStart (w : BitVec 64) : IRState (BitVec 64) Cells :=
  cellStart (fun name => if name = "i" then some w else none) fun _ => 0

theorem fourChecked_emitted :
    emitBoundsCheck checkedLookups (.symbol "i") 4 emptyLowering = .ok ((), fourChecked) := rfl

theorem labelsBelow_emptyLowering : LabelsBelow emptyLowering := fun c hMem => by cases hMem

theorem bounds_check_iff_second :
    ChecksBounds (cellMachine fun _ => false) emptyLowering fourChecked [] (indexedStart 2) 2 4 :=
  (bounds_check_iff (cellMachine_signed _) rfl labelsBelow_emptyLowering fourChecked_emitted rfl
    rfl []).mpr (Or.inl (by decide))

/-- **A negative index.** -1 is less than 4: the access is reached. -/
theorem negative_index_unchecked :
    ¬ ChecksBounds (cellMachine fun _ => false) emptyLowering fourChecked [] (indexedStart (-1))
      (-1) 4 := by
  intro hChecked
  have hIndex : (cellMachine fun _ => false).value (indexedStart (-1)) (.symbol "i") =
      some (-1) := rfl
  have hGoes := bounds_check_goes (cellMachine_signed _) rfl labelsBelow_emptyLowering
    fourChecked_emitted rfl hIndex []
  exact absurd (hChecked.1 hGoes).1 (by decide)

end Mettle.IR
