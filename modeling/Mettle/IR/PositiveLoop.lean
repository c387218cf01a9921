import Mettle.IR.FlowCleanup
import Mettle.IR.Words

/-!
# Mettle — halving in loops that count down to one

The pass of `ir/ir_optimize.c` that turns `x = x / 2` into `x = x >> 1` in the body of
`while (x > 1)`. Division rounds to zero and the shift down, so the two agree on numbers that are
not negative. The pass takes that from the loop's guard and from the text between the guard and
the division; what is executed in between it does not look at.

`HalvedSince` says what would be needed: since the guard was last passed, `x` was changed by
halvings only. On runs with that property every rewritten division is executed with `x ≥ 0`,
and the rewritten function makes exactly the same run.
-/

namespace Mettle.IR

open List Option

-- ---
-- The pass
-- ---

/-- `x = x / 2` on integers. -/
def isHalving (symbol : String) (instruction : IRInstruction) : Bool :=
  instruction.op == .binary && !instruction.isFloat && instruction.text == some "/" &&
    instruction.dest == .symbol symbol && instruction.lhs == .symbol symbol &&
    instruction.rhs == .int 2

def toShift (instruction : IRInstruction) : IRInstruction :=
  { instruction with text := some ">>", rhs := .int 1 }

/-- A loop whose guard is `x > 1`: where the guard is computed, where it is tested, and the
first jump back. -/
structure PositiveLoop where
  symbol : String
  temp : String
  compareIndex : Nat
  branchIndex : Nat
  jumpIndex : Nat
  deriving DecidableEq

/-- The first jump to the label from `start` on. -/
def findJumpTo (instructions : List IRInstruction) (name : String) (start : Nat) : Option Nat :=
  ((instructions.drop start).findIdx? fun c => c.op == .jump && c.text == some name).map (start + ·)

def positiveGuard (compare branch : IRInstruction) : Option (String × String) :=
  match compare.lhs, compare.dest with
  | .symbol symbol, .temp temp =>
    if compare.op = .binary ∧ compare.isFloat = false ∧ compare.text = some ">" ∧
        compare.rhs = .int 1 ∧ branch.op = .branchZero ∧ branch.lhs = .temp temp then
      some (symbol, temp)
    else none
  | _, _ => none

def IRInstruction.labelName (instruction : IRInstruction) : Option String :=
  if instruction.op = .label then instruction.text else none

def positiveLoopAt (instructions : List IRInstruction) (h : Nat) : Option PositiveLoop := do
  let header ← instructions[h]?
  let name ← header.labelName
  let compareIndex ← findNextNonNop instructions (h + 1)
  let branchIndex ← findNextNonNop instructions (compareIndex + 1)
  let compare ← instructions[compareIndex]?
  let branch ← instructions[branchIndex]?
  let (symbol, temp) ← positiveGuard compare branch
  let jumpIndex ← findJumpTo instructions name (branchIndex + 1)
  some { symbol, temp, compareIndex, branchIndex, jumpIndex }

def shiftDivisions (symbol : String) : List IRInstruction → Bool → List IRInstruction
  | [], _ => []
  | instruction :: rest, written =>
    if isHalving symbol instruction && !written then
      toShift instruction :: shiftDivisions symbol rest written
    else
      instruction :: shiftDivisions symbol rest (written ||
          (irInstructionWritesDestination instruction && instruction.dest == .symbol symbol))

def positiveLoopDiv2ToShiftAt (instructions : List IRInstruction) (h : Nat) :
    List IRInstruction :=
  match positiveLoopAt instructions h with
  | none => instructions
  | some loop =>
    instructions.take (loop.branchIndex + 1) ++
      shiftDivisions loop.symbol ((instructions.drop (loop.branchIndex + 1)).take
        (loop.jumpIndex - (loop.branchIndex + 1))) false ++
      instructions.drop loop.jumpIndex

/-- Halves by a shift where the loop test allows it. -/
def irPositiveLoopDiv2ToShiftPass (function : IRFunction) : IRFunction :=
  { function with
    instructions := rewriteEach positiveLoopDiv2ToShiftAt function.instructions }

-- ---
-- What the pass rewrites
-- ---

/-- The division at `q` stands in the body of the loop, with nothing but halvings of the symbol
between the guard and it, in the text. -/
structure InPositiveLoop (instructions : List IRInstruction) (loop : PositiveLoop) (q : Nat) :
    Prop where
  found : ∃ h, positiveLoopAt instructions h = some loop
  after : loop.branchIndex < q
  before : q < loop.jumpIndex
  halving : ∃ c, instructions[q]? = some c ∧ isHalving loop.symbol c = true
  between : ∀ p c, instructions[p]? = some c → loop.branchIndex < p → p < q →
    irInstructionWritesDestination c = true → c.dest = .symbol loop.symbol →
    isHalving loop.symbol c = true

def Shifts (old new : List IRInstruction) : Prop :=
  ∀ q, new[q]? = old[q]? ∨
    ∃ loop c, InPositiveLoop old loop q ∧ old[q]? = some c ∧ new[q]? = some (toShift c)

variable {c : IRInstruction} {symbol : String}

theorem isHalving_spec (h : isHalving symbol c = true) :
    c.op = .binary ∧ c.isFloat = false ∧ c.text = some "/" ∧ c.dest = .symbol symbol ∧
      c.lhs = .symbol symbol ∧ c.rhs = .int 2 := by
  simpa [isHalving, and_assoc] using h

theorem shiftDivisions_getElem? (symbol : String) (body : List IRInstruction) (written : Bool)
    (q : Nat) :
    (shiftDivisions symbol body written)[q]? = body[q]? ∨
      (written = false ∧ ∃ c, body[q]? = some c ∧ isHalving symbol c = true ∧
        (shiftDivisions symbol body written)[q]? = some (toShift c) ∧
        ∀ p d, body[p]? = some d → p < q → irInstructionWritesDestination d = true →
          d.dest = .symbol symbol → isHalving symbol d = true) := by
  induction body generalizing written q with
  | nil => exact Or.inl rfl
  | cons c rest ih =>
    rw [shiftDivisions]
    split
    · rename_i hShift
      rw [Bool.and_eq_true, Bool.not_eq_true'] at hShift
      cases q with
      | zero =>
        right
        refine ⟨hShift.2, c, rfl, hShift.1, rfl, ?_⟩
        intro p d _ hLt
        omega
      | succ q =>
        rcases ih written q with hSame | ⟨hFlag, d, hd, hIs, hNew, hAll⟩
        · exact Or.inl hSame
        · refine Or.inr ⟨hFlag, d, hd, hIs, hNew, ?_⟩
          intro p d' hd' hLt hWrites hDest
          cases p with
          | zero =>
            cases hd'
            exact hShift.1
          | succ p => exact hAll p d' hd' (by omega) hWrites hDest
    · rename_i hKeep
      cases q with
      | zero => exact Or.inl rfl
      | succ q =>
        rcases ih _ q with hSame | ⟨hFlag, d, hd, hIs, hNew, hAll⟩
        · exact Or.inl hSame
        · rw [Bool.or_eq_false_iff] at hFlag
          refine Or.inr ⟨hFlag.1, d, hd, hIs, hNew, ?_⟩
          intro p d' hd' hLt hWrites hDest
          cases p with
          | zero =>
            cases hd'
            rw [hWrites, hDest] at hFlag
            simp at hFlag
          | succ p => exact hAll p d' hd' (by omega) hWrites hDest

structure IsPositiveLoop (instructions : List IRInstruction) (h : Nat) (loop : PositiveLoop)
    (header compare branch : IRInstruction) (name : String) : Prop where
  headerAt : instructions[h]? = some header
  headerIs : header.op = .label ∧ header.text = some name
  compareFound : findNextNonNop instructions (h + 1) = some loop.compareIndex
  branchFound : findNextNonNop instructions (loop.compareIndex + 1) = some loop.branchIndex
  compareAt : instructions[loop.compareIndex]? = some compare
  branchAt : instructions[loop.branchIndex]? = some branch
  guard : positiveGuard compare branch = some (loop.symbol, loop.temp)
  jumpFound : findJumpTo instructions name (loop.branchIndex + 1) = some loop.jumpIndex

variable {code : List IRInstruction}

theorem positiveLoopAt_iff {h : Nat} {loop : PositiveLoop} : positiveLoopAt code h = some loop ↔
      ∃ header compare branch name, IsPositiveLoop code h loop header compare branch name := by
  constructor
  · intro hLoop
    unfold positiveLoopAt at hLoop
    simp only [bind_eq_bind, bind_eq_some_iff] at hLoop
    obtain ⟨header, hHeader, name, hName, compareIndex, hCompare, branchIndex, hBranch, compare,
      hCompareAt, branch, hBranchAt, ⟨symbol, temp⟩, hGuard, jumpIndex, hJump, hEq⟩ := hLoop
    cases hEq
    unfold IRInstruction.labelName at hName
    split at hName
    · rename_i hLabel
      exact ⟨header, compare, branch, name, hHeader, ⟨hLabel, hName⟩, hCompare, hBranch,
        hCompareAt, hBranchAt, hGuard, hJump⟩
    · cases hName
  · rintro ⟨header, compare, branch, name, hIs⟩
    unfold positiveLoopAt
    simp [hIs.headerAt, IRInstruction.labelName, hIs.headerIs.1, hIs.headerIs.2, hIs.compareFound,
      hIs.branchFound, hIs.compareAt, hIs.branchAt, hIs.guard, hIs.jumpFound]

theorem positiveGuard_spec {compare branch : IRInstruction} {temp : String}
    (h : positiveGuard compare branch = some (symbol, temp)) :
    compare.op = .binary ∧ compare.isFloat = false ∧ compare.text = some ">" ∧
      compare.dest = .temp temp ∧ compare.lhs = .symbol symbol ∧ compare.rhs = .int 1 ∧
      branch.op = .branchZero ∧ branch.lhs = .temp temp := by
  unfold positiveGuard at h
  split at h
  · rename_i symbol' temp' hLhs hDest
    split at h
    · rename_i hAll
      obtain ⟨hOp, hFloat, hText, hRhs, hBranch, hBranchLhs⟩ := hAll
      cases h
      exact ⟨hOp, hFloat, hText, hDest, hLhs, hRhs, hBranch, hBranchLhs⟩
    · cases h
  · cases h

section Shifting

variable {old new : List IRInstruction}

section

variable (h : Shifts old new)
include h

theorem Shifts.cases {q : Nat} {c' : IRInstruction} (hc' : new[q]? = some c') : old[q]? = some c' ∨
      ∃ c symbol, old[q]? = some c ∧ isHalving symbol c = true ∧ c' = toShift c := by
  rcases h q with hSame | ⟨loop, c, hIn, hc, hShift⟩
  · exact Or.inl (hSame.symm.trans hc')
  · right
    obtain ⟨d, hd, hIs⟩ := hIn.halving
    rw [hc] at hd
    cases hd
    rw [hShift] at hc'
    exact ⟨c, loop.symbol, hc, hIs, (some.inj hc').symm⟩

theorem Shifts.map_eq {α : Type} (view : IRInstruction → α)
    (hView : ∀ c symbol, isHalving symbol c = true → view (toShift c) = view c) :
    new.map view = old.map view := by
  apply ext_getElem?
  intro q
  rw [getElem?_map, getElem?_map]
  rcases h q with hSame | ⟨loop, c, hIn, hc, hShift⟩
  · rw [hSame]
  · obtain ⟨d, hd, hIs⟩ := hIn.halving
    rw [hc] at hd
    cases hd
    rw [hShift, hc, map_some, map_some, hView c _ hIs]

theorem Shifts.findNextNonNop_eq (start : Nat) :
    findNextNonNop new start = findNextNonNop old start := by
  have hVia : ∀ l : List IRInstruction, findNextNonNop l start =
      (((l.map IRInstruction.op).drop start).findIdx? (· != .nop)).map (start + ·) := by
    intro l
    rw [← map_drop, findIdx?_map]
    rfl
  rw [hVia, hVia, h.map_eq IRInstruction.op fun _ _ _ => rfl]

theorem Shifts.findJumpTo_eq (name : String) (start : Nat) :
    findJumpTo new name start = findJumpTo old name start := by
  have hVia : ∀ l : List IRInstruction, findJumpTo l name start =
      (((l.map fun c => c.op == .jump && c.text == some name).drop start).findIdx? id).map
        (start + ·) := by
    intro l
    rw [← map_drop, findIdx?_map]
    rfl
  have hView : ∀ c symbol, isHalving symbol c = true →
      ((toShift c).op == .jump && (toShift c).text == some name) =
        (c.op == .jump && c.text == some name) := by
    intro c symbol hIs
    simp only [toShift, (isHalving_spec hIs).1]
    rfl
  rw [hVia, hVia, h.map_eq _ hView]

theorem Shifts.loop {i : Nat} {loop : PositiveLoop} (hLoop : positiveLoopAt new i = some loop)
    : positiveLoopAt old i = some loop := by
  obtain ⟨header, compare, branch, name, hIs⟩ := positiveLoopAt_iff.mp hLoop
  obtain ⟨-, -, -, hDest, -, -, hBranchOp, -⟩ := positiveGuard_spec hIs.guard
  have hSame : ∀ {q : Nat} {c : IRInstruction}, new[q]? = some c →
      (c.op ≠ .binary ∨ ∃ t, c.dest = .temp t) → old[q]? = some c := by
    intro q c hc hNot
    rcases h.cases hc with hOld | ⟨d, symbol, -, hHalving, rfl⟩
    · exact hOld
    · exfalso
      obtain ⟨hOp, -, -, hSymbol, -, -⟩ := isHalving_spec hHalving
      rcases hNot with hNe | ⟨t, hTemp⟩
      · exact hNe hOp
      · have hDest : d.dest = .temp t := hTemp
        rw [hSymbol] at hDest
        cases hDest
  refine positiveLoopAt_iff.mpr ⟨header, compare, branch, name, ?_, hIs.headerIs, ?_, ?_, ?_, ?_,
    hIs.guard, ?_⟩
  · exact hSame hIs.headerAt (Or.inl (by rw [hIs.headerIs.1]; exact nofun))
  · rw [← h.findNextNonNop_eq]
    exact hIs.compareFound
  · rw [← h.findNextNonNop_eq]
    exact hIs.branchFound
  · exact hSame hIs.compareAt (Or.inr ⟨_, hDest⟩)
  · exact hSame hIs.branchAt (Or.inl (by rw [hBranchOp]; exact nofun))
  · rw [← h.findJumpTo_eq]
    exact hIs.jumpFound

end

theorem shiftDivisions_length (symbol : String) (body : List IRInstruction) (written : Bool) :
    (shiftDivisions symbol body written).length = body.length := by
  induction body generalizing written with
  | nil => rfl
  | cons c rest ih =>
    rw [shiftDivisions]
    split <;> rw [length_cons, length_cons, ih]

theorem splice_getElem? {l body' : List IRInstruction} {lo hi : Nat} (hLe : lo ≤ hi)
    (hLength : body'.length = ((l.drop lo).take (hi - lo)).length) (q : Nat) :
    (l.take lo ++ body' ++ l.drop hi)[q]? = l[q]? ∨
      (lo ≤ q ∧ q < hi ∧ (l.take lo ++ body' ++ l.drop hi)[q]? = body'[q - lo]?) := by
  rw [length_take, length_drop] at hLength
  have hTake : (l.take lo).length = min lo l.length := length_take
  rcases Nat.lt_or_ge q lo with hBefore | hFrom
  · left
    by_cases hIn : q < l.length
    · rw [append_assoc, getElem?_append_left (by omega), getElem?_take_of_lt hBefore]
    · have hShort : (l.take lo ++ body' ++ l.drop hi).length ≤ q := by
        simp only [length_append, length_drop, hTake]
        omega
      rw [getElem?_eq_none hShort, getElem?_eq_none (by omega)]
  · rcases Nat.lt_or_ge q hi with hIn | hBehind
    · by_cases hLong : q < l.length
      · refine Or.inr ⟨hFrom, hIn, ?_⟩
        rw [append_assoc, getElem?_append_right (by omega), getElem?_append_left (by omega), hTake]
        congr 1
        omega
      · left
        have hShort : (l.take lo ++ body' ++ l.drop hi).length ≤ q := by
          simp only [length_append, length_drop, hTake]
          omega
        rw [getElem?_eq_none hShort, getElem?_eq_none (by omega)]
    · left
      by_cases hLong : q < l.length
      · rw [getElem?_append_right (by rw [length_append]; omega), getElem?_drop]
        congr 1
        rw [length_append]
        omega
      · have hShort : (l.take lo ++ body' ++ l.drop hi).length ≤ q := by
          simp only [length_append, length_drop, hTake]
          omega
        rw [getElem?_eq_none hShort, getElem?_eq_none (by omega)]

theorem Shifts.shiftAt (h : Shifts old new) (i : Nat) :
    Shifts old (positiveLoopDiv2ToShiftAt new i) := by
  intro q
  unfold positiveLoopDiv2ToShiftAt
  cases hLoop : positiveLoopAt new i with
  | none => exact h q
  | some loop =>
    obtain ⟨header, compare, branch, name, hIs⟩ := positiveLoopAt_iff.mp hLoop
    -- the jump stands behind the branch
    have hJump : loop.branchIndex + 1 ≤ loop.jumpIndex := by
      have hFound := hIs.jumpFound
      rw [findJumpTo, map_eq_some_iff] at hFound
      omega
    rcases splice_getElem? hJump (shiftDivisions_length loop.symbol
      ((new.drop (loop.branchIndex + 1)).take (loop.jumpIndex - (loop.branchIndex + 1))) false) q with
      hSame | ⟨hLo, hHi, hBody⟩
    · rw [hSame]
      exact h q
    · rw [hBody]
      have hOld : ((new.drop (loop.branchIndex + 1)).take
          (loop.jumpIndex - (loop.branchIndex + 1)))[q - (loop.branchIndex + 1)]? = new[q]? := by
        rw [getElem?_take_of_lt (by omega), getElem?_drop]
        congr 1
        omega
      rcases shiftDivisions_getElem? loop.symbol ((new.drop (loop.branchIndex + 1)).take
          (loop.jumpIndex - (loop.branchIndex + 1))) false (q - (loop.branchIndex + 1)) with
        hSame | ⟨-, c, hc, hHalving, hShift, hAll⟩
      · rw [hSame, hOld]
        exact h q
      · rw [hOld] at hc
        -- what is still a division was one
        have hStill : ∀ {p : Nat} {d : IRInstruction}, new[p]? = some d →
            isHalving loop.symbol d = true → old[p]? = some d := by
          intro p d hd hIsHalving
          rcases h.cases hd with hSame | ⟨d', symbol, -, -, rfl⟩
          · exact hSame
          · have hText : some ">>" = some "/" := (isHalving_spec hIsHalving).2.2.1
            exact absurd hText (by decide)
        refine Or.inr ⟨loop, c, ⟨⟨i, h.loop hLoop⟩, hLo, hHi, ⟨c, hStill hc hHalving, hHalving⟩, ?_⟩,
          hStill hc hHalving, hShift⟩
        intro p d hd hLoP hHiP hWrites hDest
        have hNew : ∃ d', new[p]? = some d' ∧ d'.op = d.op ∧ d'.dest = d.dest := by
          rcases h p with hSame | ⟨_, d', _, hd', hShifted⟩
          · exact ⟨d, hSame.trans hd, rfl, rfl⟩
          · rw [hd] at hd'
            cases hd'
            exact ⟨toShift d, hShifted, rfl, rfl⟩
        obtain ⟨d', hd', hOp, hDest'⟩ := hNew
        have hIn : ((new.drop (loop.branchIndex + 1)).take
            (loop.jumpIndex - (loop.branchIndex + 1)))[p - (loop.branchIndex + 1)]? = some d' := by
          rw [getElem?_take_of_lt (by omega), getElem?_drop,
            show loop.branchIndex + 1 + (p - (loop.branchIndex + 1)) = p by omega, hd']
        have hHalving' := hAll _ d' hIn (by omega)
          (by rw [irInstructionWritesDestination, hOp, hDest']; exact hWrites)
          (by rw [hDest', hDest])
        rw [hStill hd' hHalving'] at hd
        cases hd
        exact hHalving'

end Shifting

/-- **What the pass rewrites.** -/
theorem irPositiveLoopDiv2ToShiftPass_shifts (function : IRFunction) :
    Shifts function.instructions (irPositiveLoopDiv2ToShiftPass function).instructions := by
  have hFold : ∀ (indices : List Nat) (current : List IRInstruction),
      Shifts function.instructions current →
      Shifts function.instructions (indices.foldl positiveLoopDiv2ToShiftAt current) := by
    intro indices
    induction indices with
    | nil =>
      intro current h
      exact h
    | cons i rest ih =>
      intro current h
      exact ih _ (h.shiftAt i)
  exact hFold _ _ fun q => Or.inl rfl

-- ---
-- Halving
-- ---

theorem toInt_sdiv_two {x : BitVec 64} (h : 0 ≤ x.toInt) : (x.sdiv 2).toInt = x.toInt / 2 := by
  have hTwo : (2 : BitVec 64).toInt = 2 := by decide
  have hLt := x.toInt_lt
  rw [BitVec.toInt_sdiv, hTwo, Int.tdiv_eq_ediv_of_nonneg h, Int.bmod_eq_of_le] <;> omega

/-- Half of a word that is not negative lies between zero and the word. -/
theorem sdiv_two_between {x : BitVec 64} (h : 0 ≤ x.toInt) :
    0 ≤ (x.sdiv 2).toInt ∧ (x.sdiv 2).toInt ≤ x.toInt := by
  rw [toInt_sdiv_two h]
  omega

theorem sdiv_two_of_nonneg {x : BitVec 64} (h : 0 ≤ x.toInt) : x.sdiv 2 = x.sshiftRight 1 := by
  apply BitVec.eq_of_toInt_eq
  rw [toInt_sdiv_two h, BitVec.toInt_sshiftRight, Int.shiftRight_eq_div_pow]
  rfl

theorem signedBinary_half (x : BitVec 64) : signedBinary "/" x 2 = some (x.sdiv 2) := by
  rw [signedBinary, if_pos rfl, if_neg]
  rintro (hZero | ⟨-, hMinus⟩)
  · exact absurd hZero (by decide)
  · exact absurd hMinus (by decide)

variable {M : Type} {machine : Machine (BitVec 64) M} {start : IRState (BitVec 64) M}

/-- Since the run last passed the loop's guard, the symbol was changed by halvings only. -/
inductive HalvedSince (machine : Machine (BitVec 64) M) (instructions : List IRInstruction)
    (start : IRState (BitVec 64) M) (loop : PositiveLoop) : List Nat → IRState (BitVec 64) M → Prop
  | guard {path : List Nat} {s s' : IRState (BitVec 64) M} {v : BitVec 64} :
    machine.Reaches instructions start path s → s.pc = loop.branchIndex →
    machine.value s (.temp loop.temp) = some v → machine.isZero v = false →
    machine.step instructions s = .running s' →
    HalvedSince machine instructions start loop (s.pc :: path) s'
  | keep {path : List Nat} {s s' : IRState (BitVec 64) M} :
    HalvedSince machine instructions start loop path s →
    machine.step instructions s = .running s' →
    machine.value s' (.symbol loop.symbol) = machine.value s (.symbol loop.symbol) →
    HalvedSince machine instructions start loop (s.pc :: path) s'
  | halve {path : List Nat} {s s' : IRState (BitVec 64) M} {c : IRInstruction} :
    HalvedSince machine instructions start loop path s → instructions[s.pc]? = some c →
    isHalving loop.symbol c = true → machine.step instructions s = .running s' →
    HalvedSince machine instructions start loop (s.pc :: path) s'

variable {s : IRState (BitVec 64) M}

theorem reaches_before {path : List Nat} {p : Nat}
    (hReach : machine.Reaches code start path s) (hStart : start.pc = 0)
    (hPc : s.pc = p + 1) (hc : code[p + 1]? = some c)
    (hLabel : c.op ≠ .label) :
    ∃ path' r, machine.Reaches code start path' r ∧ r.pc = p ∧
      machine.step code r = .running s := by
  cases hReach with
  | start => omega
  | @step path' r _ hBefore hStep =>
    refine ⟨path', r, hBefore, ?_, hStep⟩
    obtain ⟨d, -, hExec⟩ := step_running hStep
    rcases execute_pc hExec with hNext | ⟨-, name, -, hIndex⟩
    · omega
    · obtain ⟨l, hl, hOp⟩ := getElem?_labelIndex hIndex
      rw [hPc, hc] at hl
      cases hl
      exact absurd hOp hLabel

def ComparesOne (machine : Machine (BitVec 64) M) (loop : PositiveLoop)
    (s : IRState (BitVec 64) M) : Prop :=
  ∃ x : BitVec 64, machine.value s (.symbol loop.symbol) = some x ∧
    s.temps loop.temp = some (if (1 : BitVec 64).slt x then 1 else 0)

theorem comparesOne_of_reaches (hWords : SignedWords machine) (hStart : start.pc = 0) {h : Nat}
    {loop : PositiveLoop} {header compare branch : IRInstruction} {name : String}
    (hIs : IsPositiveLoop code h loop header compare branch name) (d : Nat) :
    ∀ {path : List Nat} {s : IRState (BitVec 64) M},
      machine.Reaches code start path s → s.pc = loop.compareIndex + 1 + d →
      s.pc ≤ loop.branchIndex → ComparesOne machine loop s := by
  obtain ⟨hOp, hFloat, hText, hDest, hLhs, hRhs, hBranchOp, -⟩ := positiveGuard_spec hIs.guard
  obtain ⟨-, -, hNops⟩ := findNextNonNop_spec hIs.branchFound
  -- none of these places is a label
  have hPlain : ∀ q, loop.compareIndex + 1 ≤ q → q ≤ loop.branchIndex →
      ∃ c, code[q]? = some c ∧ c.op ≠ .label := by
    intro q hLo hHi
    rcases Nat.lt_or_ge q loop.branchIndex with hLt | hGe
    · obtain ⟨c, hc, hNop⟩ := hNops q hLo hLt
      exact ⟨c, hc, by simp [hNop]⟩
    · refine ⟨branch, ?_, by simp [hBranchOp]⟩
      rw [show q = loop.branchIndex by omega]
      exact hIs.branchAt
  induction d with
  | zero =>
    intro path s hReach hPc hLe
    obtain ⟨c, hc, hNot⟩ := hPlain s.pc (by omega) hLe
    rw [hPc] at hc
    obtain ⟨path', r, -, hAt, hStep⟩ := reaches_before hReach hStart hPc hc hNot
    have hCompare : code[r.pc]? = some compare := by
      rw [hAt]
      exact hIs.compareAt
    rw [step_at hCompare, Machine.execute, hOp] at hStep
    obtain ⟨v, hv, rfl⟩ := finish_running hStep
    rw [Machine.compute, hOp] at hv
    rw [hText, hLhs, hRhs] at hv
    have hWidth : compare.floatWidth = 0 := by rw [IRInstruction.floatWidth, hFloat]; rfl
    cases hx : machine.value r (.symbol loop.symbol) with
    | none =>
      rw [hx] at hv
      cases hv
    | some x =>
      rw [hx] at hv
      have hValue : signedBinary ">" x 1 = some v := by
        rw [← hWords.operate (by decide) hWidth, show (1 : BitVec 64) = machine.int 1 from
          (hWords.int 1).symm]
        exact hv
      refine ⟨x, ?_, ?_⟩
      · rw [Machine.value_next, hDest, Machine.value_write_of_ne _
          (show IROperand.symbol loop.symbol ≠ .temp loop.temp by simp), hx]
      · rw [hDest]
        exact (Function.update_self _ _ _).trans hValue.symm
  | succ d ih =>
    intro path s hReach hPc hLe
    obtain ⟨c, hc, hNot⟩ := hPlain s.pc (by omega) hLe
    rw [hPc] at hc
    obtain ⟨path', r, hBefore, hAt, hStep⟩ :=
      reaches_before (p := loop.compareIndex + 1 + d) hReach hStart hPc hc hNot
    obtain ⟨x, hx, hTemp⟩ := ih hBefore hAt (by omega)
    obtain ⟨n, hn, hNop⟩ := hNops r.pc (by omega) (by omega)
    rw [step_at hn, Machine.execute, hNop] at hStep
    cases hStep
    exact ⟨x, by rw [Machine.value_next, hx], hTemp⟩

/-- **The symbol is not negative.** -/
theorem HalvedSince.nonneg (hWords : SignedWords machine) (hStart : start.pc = 0) {h : Nat}
    {loop : PositiveLoop} (hLoop : positiveLoopAt code h = some loop) {path : List Nat}
    (hSince : HalvedSince machine code start loop path s) :
    ∃ x : BitVec 64, machine.value s (.symbol loop.symbol) = some x ∧ 0 ≤ x.toInt := by
  obtain ⟨header, compare, branch, name, hIs⟩ := positiveLoopAt_iff.mp hLoop
  obtain ⟨-, -, -, -, -, -, hBranchOp, hBranchLhs⟩ := positiveGuard_spec hIs.guard
  induction hSince with
  | @guard path s s' v hReach hPc hv hZero hStep =>
    obtain ⟨hAfter, -⟩ := findNextNonNop_spec hIs.branchFound
    obtain ⟨x, hx, hTemp⟩ := comparesOne_of_reaches hWords hStart hIs
      (loop.branchIndex - (loop.compareIndex + 1)) hReach (by omega) (by omega)
    have hBranch : code[s.pc]? = some branch := by
      rw [hPc]
      exact hIs.branchAt
    rw [step_at hBranch, Machine.execute, hBranchOp] at hStep
    rw [hBranchLhs, hv] at hStep
    dsimp only at hStep
    rw [if_neg (by rw [hZero]; exact Bool.false_ne_true)] at hStep
    cases hStep
    refine ⟨x, by rw [Machine.value_next, hx], ?_⟩
    -- the guard was not zero, so `1 < x`
    have hEq : v = if (1 : BitVec 64).slt x then 1 else 0 :=
      some.inj (hv.symm.trans hTemp)
    rw [hWords.isZero, hEq] at hZero
    by_cases hLt : (1 : BitVec 64).slt x = true
    · rw [BitVec.slt_iff_toInt_lt] at hLt
      have hOne : (1 : BitVec 64).toInt = 1 := by decide
      omega
    · rw [if_neg hLt] at hZero
      cases hZero
  | keep _ _ hSame ih =>
    rw [hSame]
    exact ih
  | @halve path s s' c _ hc hHalving hStep ih =>
    obtain ⟨x, hx, hNonneg⟩ := ih
    obtain ⟨hOp, hFloat, hText, hDest, hLhs, hRhs⟩ := isHalving_spec hHalving
    rw [step_at hc, Machine.execute, hOp] at hStep
    obtain ⟨v, hv, rfl⟩ := finish_running hStep
    rw [Machine.compute, hOp] at hv
    rw [hText, hLhs, hRhs, hx] at hv
    have hWidth : c.floatWidth = 0 := by rw [IRInstruction.floatWidth, hFloat]; rfl
    have hValue : signedBinary "/" x 2 = some v := by
      rw [← hWords.operate (by decide) hWidth, show (2 : BitVec 64) = machine.int 2 from
        (hWords.int 2).symm]
      exact hv
    have hQuotient : v = x.sdiv 2 := some.inj (hValue.symm.trans (signedBinary_half x))
    have hHalf : 0 ≤ v.toInt ∧ v.toInt ≤ x.toInt := by
      rw [hQuotient]
      exact sdiv_two_between hNonneg
    refine ⟨v, ?_, hHalf.1⟩
    rw [Machine.value_next, hDest, machine.value_write_self (Or.inr ⟨_, rfl⟩),
      hWords.kept_between hx (Or.inl hHalf)]

-- ---
-- Equal runs
-- ---

theorem toShift_execute (hWords : SignedWords machine)
    (hHalving : isHalving symbol c = true) {x : BitVec 64}
    (hx : machine.value s (.symbol symbol) = some x) (hNonneg : 0 ≤ x.toInt) :
    machine.execute code s (toShift c) = machine.execute code s c := by
  obtain ⟨hOp, hFloat, hText, hDest, hLhs, hRhs⟩ := isHalving_spec hHalving
  have hWidth : c.floatWidth = 0 := by rw [IRInstruction.floatWidth, hFloat]; rfl
  have hOld : machine.compute s c = some (x.sdiv 2) := by
    rw [Machine.compute, hOp]
    rw [hText, hLhs, hRhs, hx]
    dsimp only [Machine.value]
    rw [hWords.int, hWords.operate (by decide) hWidth]
    exact signedBinary_half x
  have hNew : machine.compute s (toShift c) = some (x.sshiftRight 1) := by
    have hShiftWidth : (toShift c).floatWidth = 0 := hWidth
    rw [Machine.compute, show (toShift c).op = .binary from hOp]
    rw [show (toShift c).text = some ">>" from rfl, show (toShift c).rhs = .int 1 from rfl,
      show (toShift c).lhs = .symbol symbol from hLhs, hx]
    dsimp only [Machine.value]
    rw [hWords.int, hWords.operate (by decide) hShiftWidth]
    rfl
  rw [Machine.execute, Machine.execute, show (toShift c).op = .binary from hOp, hOp]
  rw [hNew, hOld, sdiv_two_of_nonneg hNonneg]
  rfl

/-- **Divisions that are only reached through the guard may be shifted.** On a run that comes to
every rewritten division with `x` changed by halvings only since the guard was passed, `x` is
not negative there, and the rewritten function makes the same run. -/
theorem positiveLoop_run_eq (hWords : SignedWords machine) (function : IRFunction)
    (hStart : start.pc = 0)
    (hHalved : ∀ path s loop, machine.Reaches function.instructions start path s →
      InPositiveLoop function.instructions loop s.pc →
      ∃ loop', InPositiveLoop function.instructions loop' s.pc ∧
        HalvedSince machine function.instructions start loop' path s) :
    (∀ path s loop, machine.Reaches function.instructions start path s →
      InPositiveLoop function.instructions loop s.pc →
      ∃ x : BitVec 64, machine.value s (.symbol loop.symbol) = some x ∧ 0 ≤ x.toInt) ∧
    ∀ n, machine.run (irPositiveLoopDiv2ToShiftPass function).instructions n (.running start) =
      machine.run function.instructions n (.running start) := by
  have hNonneg : ∀ path s loop, machine.Reaches function.instructions start path s →
      InPositiveLoop function.instructions loop s.pc →
      ∃ x : BitVec 64, machine.value s (.symbol loop.symbol) = some x ∧ 0 ≤ x.toInt := by
    intro path s loop hReach hIn
    obtain ⟨loop', hIn', hSince⟩ := hHalved path s loop hReach hIn
    obtain ⟨c, hc, hHalving⟩ := hIn.halving
    obtain ⟨c', hc', hHalving'⟩ := hIn'.halving
    rw [hc] at hc'
    cases hc'
    have hSame : loop'.symbol = loop.symbol := by
      have hDest := (isHalving_spec hHalving).2.2.2.1
      rw [(isHalving_spec hHalving').2.2.2.1] at hDest
      exact IROperand.symbol.inj hDest
    obtain ⟨h, hLoop⟩ := hIn'.found
    rw [← hSame]
    exact hSince.nonneg hWords hStart hLoop
  refine ⟨hNonneg, ?_⟩
  have hShifts := irPositiveLoopDiv2ToShiftPass_shifts function
  have hLabels : ∀ name, labelIndex (irPositiveLoopDiv2ToShiftPass function).instructions name =
      labelIndex function.instructions name := by
    refine labelIndex_congr ?_
    intro name q
    rw [← getElem?_map, ← getElem?_map, hShifts.map_eq]
    intro c symbol hHalving
    simp only [toShift, (isHalving_spec hHalving).1]
    rfl
  intro n
  refine run_eq_of_invariant machine
    (fun s => ∃ path, machine.Reaches function.instructions start path s) ?_ ?_ n _ ?_
  · rintro s ⟨path, hReach⟩
    rcases hShifts s.pc with hSame | ⟨loop, c, hIn, hc, hShift⟩
    · rw [Machine.step, hSame, Machine.step]
      cases function.instructions[s.pc]? with
      | none => rfl
      | some c => exact execute_congr machine hLabels s c
    · obtain ⟨x, hx, hGe⟩ := hNonneg path s loop hReach hIn
      obtain ⟨d, hd, hHalving⟩ := hIn.halving
      rw [hc] at hd
      cases hd
      rw [step_at hShift, step_at hc, execute_congr machine hLabels,
        toShift_execute hWords hHalving hx hGe]
  · rintro s s' ⟨path, hReach⟩ hStep
    exact ⟨s.pc :: path, hReach.step hStep⟩
  · rintro s hRun
    cases hRun
    exact ⟨[], .start⟩

/-- `while (x > 1) x = x / 2;` -/
def halvingLoop : IRFunction :=
  { name := "f", parameterNames := ["x"]
    instructions :=
      [{ op := .label, text := some "head" },
       { op := .binary, text := some ">", dest := .temp "t", lhs := .symbol "x", rhs := .int 1 },
       { op := .branchZero, lhs := .temp "t", text := some "done" },
       { op := .binary, text := some "/", dest := .symbol "x", lhs := .symbol "x",
         rhs := .int 2 },
       { op := .jump, text := some "head" },
       { op := .label, text := some "done" },
       { op := .return_, lhs := .symbol "x" }] }

theorem halvingLoop_in {loop : PositiveLoop} {q : Nat}
    (h : InPositiveLoop halvingLoop.instructions loop q) :
    q = 3 ∧ loop = ⟨"x", "t", 1, 2, 4⟩ := by
  obtain ⟨i, hLoop⟩ := h.found
  have hIs : loop = ⟨"x", "t", 1, 2, 4⟩ := by
    match i with
    | 0 =>
      exact (some.inj hLoop).symm
    | 1 | 2 | 3 | 4 | 5 | 6 => cases hLoop
    | i + 7 => cases hLoop
  have hLo := h.after
  have hHi := h.before
  rw [hIs] at hLo hHi
  dsimp only at hLo hHi
  exact ⟨by omega, hIs⟩

theorem positiveLoop_run_eq_halving : (irPositiveLoopDiv2ToShiftPass halvingLoop).instructions[3]? =
        some { op := .binary, text := some ">>", dest := .symbol "x", lhs := .symbol "x"
               rhs := .int 1 } ∧
      ∀ n, (cellMachine fun _ => false).run (irPositiveLoopDiv2ToShiftPass halvingLoop).instructions
          n (.running (cellStart (fun _ => some 5) id)) =
        (cellMachine fun _ => false).run halvingLoop.instructions n
          (.running (cellStart (fun _ => some 5) id)) := by
  refine ⟨by decide, ?_⟩
  refine (positiveLoop_run_eq (cellMachine_signed _) halvingLoop rfl ?_).2
  intro path s loop hReach hIn
  obtain ⟨hPc, rfl⟩ := halvingLoop_in hIn
  refine ⟨_, hIn, ?_⟩
  cases hReach with
  | start => cases hPc
  | @step path r _ hBefore hStep =>
    obtain ⟨c, hc, hExec⟩ := step_running hStep
    have hAt : r.pc = 2 := by
      rcases execute_pc hExec with hNext | ⟨-, name, -, hIndex⟩
      · omega
      · obtain ⟨l, hl, hOp⟩ := getElem?_labelIndex hIndex
        rw [hPc] at hl
        cases hl
        cases hOp
    rw [hAt] at hc
    cases hc
    cases hv : r.temps "t" with
    | none =>
      rw [Machine.execute] at hExec
      simp only [Machine.value, hv] at hExec
      cases hExec
    | some v =>
      refine .guard hBefore hAt hv ?_ hStep
      rw [Bool.eq_false_iff]
      intro hZero
      rw [Machine.execute] at hExec
      simp only [Machine.value, hv, hZero, if_true] at hExec
      obtain ⟨name, index, hName, hIndex, rfl⟩ := jumpTo_running hExec
      cases hName
      cases hIndex
      cases hPc

/-- The body is an inner loop that halves `x` and takes 4 from it. -/
def innerLoop : IRFunction :=
  { name := "f", parameterNames := ["x", "y"]
    instructions :=
      [{ op := .label, text := some "head" },
       { op := .binary, text := some ">", dest := .temp "t", lhs := .symbol "x", rhs := .int 1 },
       { op := .branchZero, lhs := .temp "t", text := some "done" },
       { op := .label, text := some "inner" },
       { op := .binary, text := some "/", dest := .symbol "x", lhs := .symbol "x",
         rhs := .int 2 },
       { op := .binary, text := some "-", dest := .symbol "x", lhs := .symbol "x",
         rhs := .int 4 },
       { op := .branchZero, lhs := .symbol "y", text := some "exit" },
       { op := .assign, dest := .symbol "y", lhs := .int 0 },
       { op := .jump, text := some "inner" },
       { op := .label, text := some "exit" },
       { op := .jump, text := some "head" },
       { op := .label, text := some "done" },
       { op := .return_, lhs := .symbol "x" }] }

/-- **The inner loop brings a negative number to the division**: from `x = 2`, the second
division is one of -3. -/
theorem inner_loop_goes_negative : ((cellMachine fun _ => false).run innerLoop.instructions 30
        (.running (cellStart (fun x => if x = "x" then some 2 else some 1) id))).value =
      some (-5) ∧
    ((cellMachine fun _ => false).run (irPositiveLoopDiv2ToShiftPass innerLoop).instructions 30
        (.running (cellStart (fun x => if x = "x" then some 2 else some 1) id))).value =
      some (-6) :=
  ⟨by decide, by decide⟩

end Mettle.IR
