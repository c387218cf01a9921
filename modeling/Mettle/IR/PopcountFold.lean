import Mathlib.Algebra.Group.Nat.Defs
import Mathlib.Data.List.Infix
import Mettle.IR.Blocks
import Mettle.IR.NullCheckLicm

/-!
# Mettle — unrolling of loops that count bits

The pass of `ir/ir_optimize.c` that replaces `while (v) { count += v & 1; v >>= 1; }` by eight
copies of its body. The matcher looks at the instructions of the body one by one; that they add
up to the counting of a bit it does not check, nor that eight rounds are enough.

`CountsBits` says that the body counts. For such a loop the copies do the same if and only if
`v` is a byte.
-/

namespace Mettle.IR

open List Option BitVec

-- ---
-- The matcher
-- ---

/-- `strstr`. -/
def textContains (part : String) (text : Option String) : Bool :=
  text.any fun t => decide (part.toList <:+: t.toList)

/-- `ir_popcount_body_is_v_shift_step`, and the two cases that the scan adds to it. -/
def isShiftStep (v : String) (c : IRInstruction) : Bool :=
  c.op == .binary && c.lhs == .symbol v &&
    ((c.text == some "/" && c.rhs == .int 2) || (c.text == some ">>" && c.rhs == .int 1)) &&
    (!c.isFloat || (c.text == some "/" && (match c.dest with | .temp _ => true | _ => false)))

/-- What the scan of the body has seen. -/
structure PopcountScan where
  sawAnd : Bool := false
  sawAdd : Bool := false
  sawShift : Bool := false
  count : Option String := none
  useInt32Cast : Bool := false
  useUint8Cast : Bool := false
  deriving DecidableEq

/-- The scan fails at an addition to another symbol, at one that does not add to its
destination, and at any other write of a symbol that is neither `v` nor the count. -/
def popcountScanStep (v : String) (scan : PopcountScan) (c : IRInstruction) :
    Option PopcountScan :=
  if c.op = .nop then some scan
  else if c.op = .binary ∧ c.text = some "&" ∧ c.lhs = .symbol v ∧ c.rhs = .int 1 then
    some { scan with sawAnd := true }
  else if c.op = .cast ∧ textContains "int32" c.text = true ∧
      (match c.dest with | .temp _ => true | _ => false) = true then
    some { scan with useInt32Cast := true }
  else
    match c.dest with
    | .symbol dest =>
      if c.op = .binary ∧ c.text = some "+" then
        if scan.count.any (· != dest) then none
        else if c.lhs = .symbol dest ∨ c.rhs = .symbol dest then
          some { scan with count := some dest, sawAdd := true }
        else none
      else if isShiftStep v c then some { scan with sawShift := true }
      else if c.op = .cast ∧ textContains "uint8" c.text = true ∧ dest = v then
        some { scan with useUint8Cast := true }
      else if c.op = .assign ∧ dest = v then some scan
      else if irInstructionWritesDestination c = true ∧ dest ≠ v ∧ scan.count ≠ some dest then none
      else some scan
    | _ => if isShiftStep v c then some { scan with sawShift := true } else some scan

/-- `ir_popcount_body_matches`. -/
def popcountBodyMatches (v : String) (body : List IRInstruction) : Option (String × Bool × Bool) :=
  if body = [] then none
  else
    (body.foldlM (popcountScanStep v) {}).bind fun scan =>
      if scan.sawAnd && scan.sawAdd && scan.sawShift then
        scan.count.map fun count => (count, scan.useInt32Cast, scan.useUint8Cast)
      else none

structure PopcountLoop where
  symbol : String
  count : String
  header : String
  done : String
  branchIndex : Nat
  jumpIndex : Nat
  doneIndex : Nat
  useInt32Cast : Bool
  useUint8Cast : Bool
  deriving DecidableEq

def findJumpBeforeLabel (instructions : List IRInstruction) (name : String) (start : Nat) :
    Option Nat :=
  (((instructions.drop start).findIdx? fun c =>
      (c.op == .jump && c.text == some name) || c.op == .label).map (start + ·)).filter fun k =>
    instructions[k]?.any fun c => c.op == .jump

/-- `branch_zero symbol → label`. -/
def symbolBranch (branch : IRInstruction) : Option (String × String) :=
  match branch.lhs, branch.text with
  | .symbol v, some done => if branch.op = .branchZero then some (v, done) else none
  | _, _ => none

/-- The loop that `ir_try_fold_popcount_byte_loop_at` finds at a header. -/
def popcountLoopAt (instructions : List IRInstruction) (h : Nat) : Option PopcountLoop := do
  let header ← instructions[h]?
  let name ← header.labelName
  let branchIndex ← findNextNonNop instructions (h + 1)
  let branch ← instructions[branchIndex]?
  let (v, done) ← symbolBranch branch
  let jumpIndex ← findJumpBeforeLabel instructions name (branchIndex + 1)
  let (count, useInt32Cast, useUint8Cast) ← popcountBodyMatches v
    ((instructions.drop (branchIndex + 1)).take (jumpIndex - (branchIndex + 1)))
  let doneIndex ← labelIndex instructions done
  if jumpIndex < doneIndex then
    some { symbol := v, count, header := name, done, branchIndex, jumpIndex, doneIndex
           useInt32Cast, useUint8Cast }
  else none

-- ---
-- The replacement
-- ---

def popcountTemp (h : Nat) (kind : String) (step : Nat) : String :=
  "pc" ++ toString h ++ kind ++ toString step

/-- `ir_popcount_emit_unrolled_step`. -/
def unrolledStep (h : Nat) (loop : PopcountLoop) (step : Nat) : List IRInstruction :=
  [{ op := .branchZero, lhs := .symbol loop.symbol, text := some loop.done },
   { op := .binary, text := some "&", dest := .temp (popcountTemp h "_b" step)
     lhs := .symbol loop.symbol, rhs := .int 1 }] ++
  (if loop.useInt32Cast then
    [{ op := .cast, text := some "(int32)", dest := .temp (popcountTemp h "_c" step)
       lhs := .temp (popcountTemp h "_b" step) }]
  else []) ++
  [{ op := .binary, text := some "+", dest := .symbol loop.count, lhs := .symbol loop.count
     rhs := .temp (popcountTemp h (if loop.useInt32Cast then "_c" else "_b") step) }] ++
  (if loop.useUint8Cast then
    [{ op := .binary, text := some ">>", dest := .temp (popcountTemp h "_s" step)
       lhs := .symbol loop.symbol, rhs := .int 1 },
     { op := .cast, text := some "(uint8)", dest := .symbol loop.symbol
       lhs := .temp (popcountTemp h "_s" step) }]
  else
    [{ op := .binary, text := some ">>", dest := .symbol loop.symbol
       lhs := .symbol loop.symbol, rhs := .int 1 }])

/-- `IR_POPCOUNT_BYTE_UNROLL` copies. -/
def unrolledSteps (h : Nat) (loop : PopcountLoop) : List IRInstruction :=
  (List.range 8).flatMap (unrolledStep h loop)

def foldPopcount (instructions : List IRInstruction) (h : Nat) (loop : PopcountLoop) :
    List IRInstruction :=
  instructions.take h ++ unrolledSteps h loop ++ instructions.drop loop.doneIndex

/-- Folds the first loop that matches. -/
def irFoldPopcountByteLoopPass (function : IRFunction) : IRFunction :=
  { function with
    instructions :=
      ((List.range function.instructions.length).findSome? fun h =>
        (popcountLoopAt function.instructions h).map
          (foldPopcount function.instructions h)).getD function.instructions }

-- ---
-- What is matched, and what it becomes
-- ---

structure IsPopcountLoop (instructions : List IRInstruction) (h : Nat) (loop : PopcountLoop) :
    Prop where
  headerAt : ∃ c, instructions[h]? = some c ∧ c.op = .label
  branchFound : findNextNonNop instructions (h + 1) = some loop.branchIndex
  branchAt : ∃ c, instructions[loop.branchIndex]? = some c ∧ c.op = .branchZero ∧
    c.lhs = .symbol loop.symbol ∧ c.text = some loop.done
  after : loop.branchIndex < loop.jumpIndex
  jumpAt : ∃ c, instructions[loop.jumpIndex]? = some c ∧ c.op = .jump ∧ c.text = some loop.header
  doneAt : labelIndex instructions loop.done = some loop.doneIndex
  behind : loop.jumpIndex < loop.doneIndex

theorem symbolBranch_spec {branch : IRInstruction} {v done : String}
    (h : symbolBranch branch = some (v, done)) :
    branch.op = .branchZero ∧ branch.lhs = .symbol v ∧ branch.text = some done := by
  unfold symbolBranch at h
  split at h
  · rename_i v' done' hLhs hText
    split at h
    · rename_i hOp
      cases h
      exact ⟨hOp, hLhs, hText⟩
    · cases h
  · cases h

variable {instructions : List IRInstruction}

variable {k : Nat}

theorem findJumpBeforeLabel_spec {name : String} {start : Nat}
    (h : findJumpBeforeLabel instructions name start = some k) :
    start ≤ k ∧ ∃ c, instructions[k]? = some c ∧ c.op = .jump ∧ c.text = some name := by
  obtain ⟨hFound, hKind⟩ := filter_eq_some_iff.mp h
  obtain ⟨d, hd, rfl⟩ := map_eq_some_iff.mp hFound
  obtain ⟨hLt, hIs, -⟩ := findIdx?_eq_some_iff_getElem.mp hd
  refine ⟨by omega, ?_⟩
  have hAt : instructions[start + d]? = some (instructions.drop start)[d] := by
    rw [← List.getElem?_drop, List.getElem?_eq_getElem hLt]
  rw [hAt] at hKind
  have hJump : (instructions.drop start)[d].op = .jump := by simpa using hKind
  refine ⟨_, hAt, hJump, ?_⟩
  rw [hJump] at hIs
  simpa using hIs

variable {loop : PopcountLoop}

variable {h : Nat}

theorem popcountLoopAt_spec (hLoop : popcountLoopAt instructions h = some loop) :
    IsPopcountLoop instructions h loop := by
  unfold popcountLoopAt at hLoop
  simp only [bind_eq_bind, bind_eq_some_iff] at hLoop
  obtain ⟨header, hHeader, name, hName, branchIndex, hBranch, branch, hBranchAt, ⟨v, done⟩,
    hSymbol, jumpIndex, hJump, ⟨count, useInt32Cast, useUint8Cast⟩, -, doneIndex, hDone,
    hEnd⟩ := hLoop
  split at hEnd
  · rename_i hBehind
    cases hEnd
    obtain ⟨hOp, hLhs, hText⟩ := symbolBranch_spec hSymbol
    obtain ⟨hAfter, hJumpAt⟩ := findJumpBeforeLabel_spec hJump
    refine ⟨⟨header, hHeader, ?_⟩, hBranch, ⟨branch, hBranchAt, hOp, hLhs, hText⟩, hAfter,
      hJumpAt, hDone, hBehind⟩
    unfold IRInstruction.labelName at hName
    split at hName
    · assumption
    · cases hName
  · cases hEnd

def copyLength (loop : PopcountLoop) : Nat := (unrolledStep 0 loop 0).length

theorem unrolledStep_length_eq (h : Nat) (loop : PopcountLoop) (step : Nat) :
    (unrolledStep h loop step).length = copyLength loop := by
  unfold copyLength unrolledStep
  split <;> split <;> rfl

theorem unrolled_length (h : Nat) (loop : PopcountLoop) (k : Nat) :
    ((List.range k).flatMap (unrolledStep h loop)).length = k * copyLength loop := by
  induction k with
  | zero => rw [Nat.zero_mul]; rfl
  | succ k ih =>
    rw [range_succ, flatMap_append, length_append, ih, flatMap_singleton,
      unrolledStep_length_eq, Nat.succ_mul]

theorem foldPopcount_blockAt (hHeader : h ≤ instructions.length) (hk : k < 8) :
    BlockAt (foldPopcount instructions h loop) (h + k * copyLength loop)
      (unrolledStep h loop k) := by
  have hSplit : List.range 8 = List.range k ++ k :: (List.range' (k + 1) (7 - k)) := by
    rw [List.range_eq_range', List.range_eq_range',
      show 8 = k + (7 - k + 1) by omega, ← List.range'_append_1, List.range'_succ, Nat.zero_add]
  have hPlace : h + k * copyLength loop =
      (instructions.take h ++ (List.range k).flatMap (unrolledStep h loop)).length := by
    rw [List.length_append, unrolled_length, List.length_take, Nat.min_eq_left hHeader]
  have hShape : foldPopcount instructions h loop =
      (instructions.take h ++ (List.range k).flatMap (unrolledStep h loop)) ++
        unrolledStep h loop k ++
        ((List.range' (k + 1) (7 - k)).flatMap (unrolledStep h loop) ++
          instructions.drop loop.doneIndex) := by
    rw [foldPopcount, unrolledSteps, hSplit, List.flatMap_append, List.flatMap_cons]
    simp
  rw [hShape, hPlace]
  exact blockAt_append _ _ _

theorem unrolledStep_no_label {step : Nat} {c : IRInstruction} (hc : c ∈ unrolledStep h loop step)
    (name : String) : c.isLabel name = false := by
  unfold unrolledStep at hc
  simp only [mem_append, mem_cons, not_mem_nil, or_false] at hc
  rcases hc with (((rfl | rfl) | hc) | rfl) | hc
  · rfl
  · rfl
  · split at hc
    · rw [mem_singleton.mp hc]; rfl
    · cases hc
  · rfl
  · split at hc
    · simp only [mem_cons, not_mem_nil, or_false] at hc
      rcases hc with rfl | rfl <;> rfl
    · rw [mem_singleton.mp hc]; rfl

theorem foldPopcount_done (hIs : IsPopcountLoop instructions h loop) :
    labelIndex (foldPopcount instructions h loop) loop.done = some (h + 8 * copyLength loop) := by
  obtain ⟨hFound, -⟩ := findNextNonNop_spec hIs.branchFound
  have hAfter := hIs.after
  have hBehind := hIs.behind
  obtain ⟨⟨c, hc, hLabel⟩, hBefore⟩ := labelIndex_iff.mp hIs.doneAt
  have hLt := (List.getElem_of_getElem? hc).1
  have hTake : (instructions.take h).length = h := by
    rw [List.length_take]
    omega
  have hFront : (instructions.take h ++ unrolledSteps h loop).length = h + 8 * copyLength loop := by
    rw [List.length_append, hTake, unrolledSteps, unrolled_length]
  rw [foldPopcount]
  refine labelIndex_iff.mpr ⟨⟨c, ?_, hLabel⟩, ?_⟩
  · rw [List.getElem?_append_right (by omega), hFront, Nat.sub_self, List.getElem?_drop,
      Nat.add_zero]
    exact hc
  · intro q d hq hd
    rw [List.getElem?_append_left (by omega)] at hd
    rcases Nat.lt_or_ge q h with hIn | hGe
    · rw [List.getElem?_append_left (by omega), List.getElem?_take_of_lt hIn] at hd
      exact hBefore q d (by omega) hd
    · rw [List.getElem?_append_right (by omega)] at hd
      obtain ⟨step, -, hMem⟩ := List.mem_flatMap.mp (List.mem_of_getElem? hd)
      exact unrolledStep_no_label hMem _

-- ---
-- What a copy does
-- ---

variable {place : Nat} {c : BitVec 64}

section Copies

variable {M : Type} {machine : Machine (BitVec 64) M} {code : List IRInstruction} {lo hi : Nat}
  {s : IRState (BitVec 64) M}

/-- The casts of the copies name no type (the names of the types have no parentheses), and a
cast to no type keeps the word. -/
structure CopyCasts (machine : Machine (BitVec 64) M) : Prop where
  int32 : ∀ a, machine.cast "(int32)" 0 a = some a
  uint8 : ∀ a, machine.cast "(uint8)" 0 a = some a

def countRound (machine : Machine (BitVec 64) M) (loop : PopcountLoop)
    (s : IRState (BitVec 64) M) (x c : BitVec 64) : IRState (BitVec 64) M :=
  machine.write (machine.write s (.symbol loop.count) (c + (x &&& 1))) (.symbol loop.symbol)
    (x.sshiftRight 1)

theorem BlockAt.nth {block : List IRInstruction} {c : IRInstruction} (h : BlockAt code place block)
    (hc : block[k]? = some c) : code[place + k]? = some c := by
  obtain ⟨tail, hTail⟩ := h
  have hLt := (List.getElem_of_getElem? hc).1
  rw [← List.getElem?_drop, ← hTail, List.getElem?_append_left hLt]
  exact hc

variable {x : BitVec 64}

theorem copyLength_eq (loop : PopcountLoop) :
    copyLength loop = (if loop.useInt32Cast then 3 else 2) + (if loop.useUint8Cast then 3 else 2) ∧
      2 ≤ (if loop.useInt32Cast then 3 else 2) ∧ 2 ≤ (if loop.useUint8Cast then 3 else 2) := by
  unfold copyLength unrolledStep
  cases loop.useInt32Cast <;> cases loop.useUint8Cast <;> exact ⟨rfl, by decide, by decide⟩

theorem compute_binary (hWords : SignedWords machine) {op : String} {dest a b : IROperand}
    {y v : BitVec 64} (hx : machine.value s a = some x) (hy : machine.value s b = some y)
    (hv : signedBinary op x y = some v) : machine.compute s
      { op := .binary, text := some op, dest := dest, lhs := a, rhs := b } = some v := by
  rw [Machine.compute]
  rw [hx, hy]
  exact (hWords.binary op x y).trans hv

theorem compute_cast {type : String} {dest a : IROperand} {v : BitVec 64}
    (hx : machine.value s a = some x) (hv : machine.cast type 0 x = some v) :
    machine.compute s { op := .cast, text := some type, dest := dest, lhs := a } = some v := by
  rw [Machine.compute]
  rw [hx]
  exact hv

variable {h k : Nat}

theorem unrolled_exit (hWords : SignedWords machine)
    (hBlock : BlockAt code s.pc (unrolledStep h loop k)) (hLo : lo ≤ s.pc) (hHi : s.pc < hi)
    (hv : machine.value s (.symbol loop.symbol) = some 0)
    (hDone : labelIndex code loop.done = some place) :
    Through machine code lo hi s { s with pc := place } := by
  have hAt : code[s.pc]? =
      some { op := .branchZero, lhs := .symbol loop.symbol, text := some loop.done } :=
    hBlock.nth (k := 0) rfl
  refine Through.one hAt hLo hHi ?_
  rw [Machine.execute]
  rw [hv]
  dsimp only
  rw [hWords.isZero, if_pos (beq_self_eq_true _), jumpTo, hDone]

section

variable (hWords : SignedWords machine) (hCasts : CopyCasts machine)
include hWords hCasts

theorem unrolled_bit (hBlock : BlockAt code s.pc (unrolledStep h loop k)) (hLo : lo ≤ s.pc)
    (hHi : s.pc + copyLength loop ≤ hi) (hv : machine.value s (.symbol loop.symbol) = some x)
    (hNe : x ≠ 0) :
    ∃ t, Through machine code lo hi s t ∧ SameSymbols t s ∧
      t.pc = s.pc + (if loop.useInt32Cast then 3 else 2) ∧
      machine.value t (.temp (popcountTemp h (if loop.useInt32Cast then "_c" else "_b") k)) =
        some (x &&& 1) := by
  obtain ⟨hLong, hFirst, hLast⟩ := copyLength_eq loop
  have hBranch : Through machine code lo hi s s.next := by
    have hAt : code[s.pc]? =
        some { op := .branchZero, lhs := .symbol loop.symbol, text := some loop.done } :=
      hBlock.nth (k := 0) rfl
    refine Through.one hAt hLo (by omega) ?_
    rw [Machine.execute]
    rw [hv]
    dsimp only
    rw [hWords.isZero, if_neg (by simpa using hNe)]
  have hStart : Comes machine code lo hi s s.next (s.pc + 1) s := ⟨hBranch, rfl, rfl, rfl, rfl⟩
  obtain ⟨b, hb, hBit⟩ := hStart.temp (hBlock.nth (k := 1) rfl) (by omega) (by omega) rfl rfl
    (compute_binary hWords ((machine.value_next s _).trans hv) (congrArg some (hWords.int 1)) rfl)
  cases hCast : loop.useInt32Cast with
  | false => exact ⟨b, hb.through, hb.same, hb.pc, hBit⟩
  | true =>
    have hGet : (unrolledStep h loop k)[2]? =
        some { op := .cast, text := some "(int32)", dest := .temp (popcountTemp h "_c" k)
               lhs := .temp (popcountTemp h "_b" k) } := by
      rw [unrolledStep, hCast]
      rfl
    obtain ⟨c, hc, hcv⟩ := hb.temp (hBlock.nth hGet) (by omega) (by omega) rfl rfl
      (compute_cast hBit (hCasts.int32 _))
    exact ⟨c, hc.through, hc.same, hc.pc, hcv⟩

theorem unrolled_shift (hApart : loop.symbol ≠ loop.count)
    (hBlock : BlockAt code place (unrolledStep h loop k)) (hLo : lo ≤ place)
    (hHi : place + copyLength loop ≤ hi) (hPc : s.pc = place + (if loop.useInt32Cast then 3 else 2))
    (hBit : machine.value s (.temp (popcountTemp h (if loop.useInt32Cast then "_c" else "_b") k)) =
      some (x &&& 1)) (hv : machine.value s (.symbol loop.symbol) = some x)
    (hc : machine.value s (.symbol loop.count) = some c) :
    ∃ t, Through machine code lo hi s t ∧ t.pc = place + copyLength loop ∧
      SameSymbols t (countRound machine loop s x c) := by
  have hOne : ∀ r : IRState (BitVec 64) M, machine.value r (.int 1) = some 1 :=
    fun r => congrArg some (hWords.int 1)
  have hGet : ∀ {j : Nat} {d : IRInstruction},
      (unrolledStep h loop k)[(if loop.useInt32Cast then 3 else 2) + j]? = some d →
      code[s.pc + j]? = some d := by
    intro j d hd
    rw [hPc, Nat.add_assoc]
    exact hBlock.nth hd
  have hAdd : code[s.pc]? = some
      { op := .binary, text := some "+", dest := .symbol loop.count, lhs := .symbol loop.count
        rhs := .temp (popcountTemp h (if loop.useInt32Cast then "_c" else "_b") k) } := by
    refine hGet (j := 0) ?_
    unfold unrolledStep
    cases loop.useInt32Cast <;> rfl
  -- behind the addition
  obtain ⟨hLong, hFirst, hLast⟩ := copyLength_eq loop
  obtain ⟨r, hr⟩ := (Comes.refl s).symbol hAdd (show lo ≤ s.pc by omega)
    (show s.pc < hi by omega) rfl rfl (compute_binary hWords hc hBit rfl)
  have hrv : machine.value r (.symbol loop.symbol) = some x := by
    rw [hr.same.value, machine.value_write_of_ne (by simpa using hApart)]
    exact hv
  cases hCast : loop.useUint8Cast with
  | false =>
    rw [hCast, if_neg Bool.false_ne_true] at hLong
    have hShift : code[s.pc + 1]? = some
        { op := .binary, text := some ">>", dest := .symbol loop.symbol
          lhs := .symbol loop.symbol, rhs := .int 1 } := by
      refine hGet ?_
      unfold unrolledStep
      rw [hCast]
      cases loop.useInt32Cast <;> rfl
    obtain ⟨q, hq⟩ := hr.symbol hShift (by omega) (by omega) rfl rfl
      (compute_binary hWords hrv (hOne r) rfl)
    exact ⟨q, hq.through, by rw [hq.pc]; omega, hq.same⟩
  | true =>
    rw [hCast, if_pos rfl] at hLong
    have hShift : code[s.pc + 1]? = some
        { op := .binary, text := some ">>", dest := .temp (popcountTemp h "_s" k)
          lhs := .symbol loop.symbol, rhs := .int 1 } := by
      refine hGet ?_
      unfold unrolledStep
      rw [hCast]
      cases loop.useInt32Cast <;> rfl
    have hCastAt : code[s.pc + 2]? = some
        { op := .cast, text := some "(uint8)", dest := .symbol loop.symbol
          lhs := .temp (popcountTemp h "_s" k) } := by
      refine hGet ?_
      unfold unrolledStep
      rw [hCast]
      cases loop.useInt32Cast <;> rfl
    obtain ⟨q, hq, hqv⟩ := hr.temp hShift (by omega) (by omega) rfl rfl
      (compute_binary hWords hrv (hOne r) rfl)
    obtain ⟨u, hu⟩ := hq.symbol hCastAt (by omega) (by omega) rfl rfl
      (compute_cast hqv (hCasts.uint8 _))
    exact ⟨u, hu.through, by rw [hu.pc]; omega, hu.same⟩

/-- **One copy is one round.** -/
theorem unrolled_step (hApart : loop.symbol ≠ loop.count)
    (hBlock : BlockAt code s.pc (unrolledStep h loop k)) (hLo : lo ≤ s.pc)
    (hHi : s.pc + copyLength loop ≤ hi) (hv : machine.value s (.symbol loop.symbol) = some x)
    (hNe : x ≠ 0) (hc : machine.value s (.symbol loop.count) = some c) :
    ∃ t, Through machine code lo hi s t ∧ t.pc = s.pc + copyLength loop ∧
      SameSymbols t (countRound machine loop s x c) := by
  obtain ⟨r, hFirst, hSame, hPc, hBit⟩ := unrolled_bit hWords hCasts hBlock hLo hHi hv hNe
  obtain ⟨t, hSecond, hEnd, hRound⟩ := unrolled_shift hWords hCasts hApart hBlock hLo hHi hPc hBit
    ((hSame.value _).trans hv) ((hSame.value _).trans hc)
  refine ⟨t, hFirst.trans hSecond, hEnd, hRound.trans ?_⟩
  exact (hSame.write_symbol loop.count _).write_symbol loop.symbol _

end

end Copies

-- ---
-- The loop
-- ---

variable {x : BitVec 64}

section Loop

variable {M : Type} {machine : Machine (BitVec 64) M} {h : Nat} {s : IRState (BitVec 64) M}

/-- The loop counts the bits of bytes: its body goes straight to the jump, and a round that
starts with a byte is a round of counting. -/
structure CountsBits (machine : Machine (BitVec 64) M) (instructions : List IRInstruction)
    (h : Nat) (loop : PopcountLoop) : Prop where
  header : labelIndex instructions loop.header = some h
  apart : loop.symbol ≠ loop.count
  straight : ∀ (q : Nat) c, instructions[q]? = some c → loop.branchIndex < q →
    q < loop.jumpIndex → c.mayJump = false
  round : ∀ s x c, s.pc = loop.branchIndex + 1 →
    machine.value s (.symbol loop.symbol) = some x → x ≠ 0 → x.toNat < 256 →
    machine.value s (.symbol loop.count) = some c →
    ∃ t, Through machine instructions (loop.branchIndex + 1) loop.jumpIndex s t ∧
      t.pc = loop.jumpIndex ∧ SameSymbols t (countRound machine loop s x c)

theorem loop_to_branch (hIs : IsPopcountLoop instructions h loop) (hPc : s.pc = h) :
    Through machine instructions h (loop.jumpIndex + 1) s { s with pc := loop.branchIndex } := by
  obtain ⟨hLe, -, hNops⟩ := findNextNonNop_spec hIs.branchFound
  obtain ⟨header, hHeader, hLabel⟩ := hIs.headerAt
  have hAfter := hIs.after
  refine through_idle (by omega) (by omega) (by omega) ?_
  intro q hLo hHi
  rcases Nat.eq_or_lt_of_le (show h ≤ q by omega) with rfl | hGt
  · exact ⟨header, hHeader, Or.inr hLabel⟩
  · obtain ⟨c, hc, hNop⟩ := hNops q hGt hHi
    exact ⟨c, hc, Or.inl hNop⟩

section

variable (hWords : SignedWords machine) (hIs : IsPopcountLoop instructions h loop)
include hWords hIs

theorem loop_exit (hPc : s.pc = h) (hv : machine.value s (.symbol loop.symbol) = some 0) :
    Through machine instructions h (loop.jumpIndex + 1) s { s with pc := loop.doneIndex } := by
  obtain ⟨hLe, -⟩ := findNextNonNop_spec hIs.branchFound
  have hAfter := hIs.after
  obtain ⟨branch, hBranch, hOp, hLhs, hText⟩ := hIs.branchAt
  refine (loop_to_branch hIs hPc).trans (Through.one hBranch ?_ ?_ ?_)
  · dsimp only
    omega
  · dsimp only
    omega
  · rw [Machine.execute, hOp, hLhs]
    rw [machine.value_pc, hv]
    dsimp only
    rw [hWords.isZero, if_pos (beq_self_eq_true _), hText, jumpTo, hIs.doneAt]

theorem loop_round (hCounts : CountsBits machine instructions h loop) (hPc : s.pc = h)
    (hv : machine.value s (.symbol loop.symbol) = some x) (hNe : x ≠ 0) (hByte : x.toNat < 256)
    (hc : machine.value s (.symbol loop.count) = some c) :
    ∃ t, Through machine instructions h (loop.jumpIndex + 1) s t ∧ t.pc = h ∧
      SameSymbols t (countRound machine loop s x c) := by
  obtain ⟨hLe, -⟩ := findNextNonNop_spec hIs.branchFound
  have hAfter := hIs.after
  obtain ⟨branch, hBranch, hOp, hLhs, hText⟩ := hIs.branchAt
  obtain ⟨jump, hJump, hJumpOp, hJumpText⟩ := hIs.jumpAt
  have hPass : Through machine instructions h (loop.jumpIndex + 1)
      { s with pc := loop.branchIndex } { s with pc := loop.branchIndex + 1 } := by
    refine Through.one hBranch (by dsimp only; omega) (by dsimp only; omega) ?_
    rw [Machine.execute, hOp, hLhs]
    rw [machine.value_pc, hv]
    dsimp only
    rw [hWords.isZero, if_neg (by simpa using hNe)]
    rfl
  obtain ⟨t, hBody, hEnd, hSame⟩ := hCounts.round { s with pc := loop.branchIndex + 1 } x c rfl
    ((machine.value_pc s _ _).trans hv) hNe hByte ((machine.value_pc s _ _).trans hc)
  have hBack : Through machine instructions h (loop.jumpIndex + 1) t { t with pc := h } := by
    refine Through.one (hEnd ▸ hJump) (by omega) (by omega) ?_
    rw [Machine.execute, hJumpOp]
    rw [hJumpText, jumpTo, hCounts.header]
  refine ⟨{ t with pc := h },
    (((loop_to_branch hIs hPc).trans hPass).trans (hBody.mono (by omega) (by omega))).trans hBack,
    rfl, ?_⟩
  have hStart : SameSymbols { s with pc := loop.branchIndex + 1 } s := ⟨rfl, rfl, rfl⟩
  have hRound : SameSymbols t (countRound machine loop s x c) :=
    hSame.trans ((hStart.write_symbol loop.count _).write_symbol loop.symbol _)
  exact ⟨hRound.locals, hRound.memory, hRound.trace⟩

theorem loop_exit_zero (hCounts : CountsBits machine instructions h loop)
    {t : IRState (BitVec 64) M} (hThrough : Through machine instructions h (loop.jumpIndex + 1) s t)
    (hLo : h ≤ s.pc) (hHi : s.pc < loop.jumpIndex + 1) (hEnd : t.pc = loop.doneIndex) :
    machine.value t (.symbol loop.symbol) = some 0 := by
  obtain ⟨hLe, -, hNops⟩ := findNextNonNop_spec hIs.branchFound
  have hAfter := hIs.after
  have hBehind := hIs.behind
  obtain ⟨n, loads, hInside⟩ := hThrough
  induction hInside with
  | refl state => omega
  | @step n state next final loads c hAt hLo' hHi' hStep hRest ih =>
    by_cases hStays : next.pc < loop.jumpIndex + 1 ∧ h ≤ next.pc
    · exact ih hStays.2 hStays.1 hEnd
    · -- this is the last step
      obtain rfl : next = final := by
        cases hRest with
        | refl => rfl
        | step _ hLoNext hHiNext => exact absurd ⟨hHiNext, hLoNext⟩ hStays
      rcases execute_pc hStep with hNext | ⟨hOp, name, hName, hIndex⟩
      · exfalso
        obtain ⟨jump, hJump, hJumpOp, hJumpText⟩ := hIs.jumpAt
        have hLast : state.pc = loop.jumpIndex := by omega
        rw [hLast, hJump] at hAt
        cases hAt
        rw [Machine.execute, hJumpOp] at hStep
        rw [hJumpText, jumpTo, hCounts.header] at hStep
        rw [← Outcome.running.inj hStep] at hNext hEnd
        dsimp only at hEnd
        omega
      · have hMay := mayJump_iff.mpr hOp
        -- only the branch and the jump are no straight code
        have hAtBranch : state.pc = loop.branchIndex := by
          by_contra hNot
          rcases Nat.lt_or_ge state.pc loop.branchIndex with hFront | hBack
          · rcases Nat.eq_or_lt_of_le hLo' with hEq | hGt
            · obtain ⟨header, hHeader, hLabel⟩ := hIs.headerAt
              rw [← hEq, hHeader] at hAt
              cases hAt
              rw [hLabel] at hOp
              simp at hOp
            · obtain ⟨nop, hNop, hNopOp⟩ := hNops state.pc hGt hFront
              rw [hNop] at hAt
              cases hAt
              rw [hNopOp] at hOp
              simp at hOp
          · rcases Nat.lt_or_ge state.pc loop.jumpIndex with hBody | hJumpAt
            · have hNo := hCounts.straight state.pc c hAt (by omega) hBody
              rw [hMay] at hNo
              cases hNo
            · obtain ⟨jump, hJump, hJumpOp, hJumpText⟩ := hIs.jumpAt
              rw [show state.pc = loop.jumpIndex by omega, hJump] at hAt
              cases hAt
              rw [hJumpText] at hName
              cases hName
              rw [hCounts.header] at hIndex
              have hBackAt := some.inj hIndex
              omega
        obtain ⟨branch, hBranch, hBranchOp, hLhs, hText⟩ := hIs.branchAt
        rw [hAtBranch, hBranch] at hAt
        cases hAt
        rw [Machine.execute, hBranchOp, hLhs] at hStep
        cases hv : machine.value state (.symbol loop.symbol) with
        | none =>
          rw [hv] at hStep
          cases hStep
        | some x =>
          rw [hv] at hStep
          dsimp only at hStep
          split at hStep
          · rename_i hZero
            rw [hWords.isZero, beq_iff_eq] at hZero
            obtain ⟨_, _, _, _, rfl⟩ := jumpTo_running hStep
            rw [machine.value_pc, hv, hZero]
          · rw [← Outcome.running.inj hStep] at hEnd
            dsimp only [IRState.next] at hEnd
            omega

end

theorem sshiftRight_one_between (x : BitVec 64) :
    0 ≤ (x.sshiftRight 1).toInt ∧ (x.sshiftRight 1).toInt ≤ x.toInt ∨
      x.toInt ≤ (x.sshiftRight 1).toInt ∧ (x.sshiftRight 1).toInt ≤ 0 := by
  rw [toInt_sshiftRight, Int.shiftRight_eq_div_pow]
  omega

/-- A symbol of any width holds what is left of its word behind a round. -/
theorem countRound_values (hWords : SignedWords machine) {s : IRState (BitVec 64) M}
    (hApart : loop.symbol ≠ loop.count) {x : BitVec 64}
    (hv : machine.value s (.symbol loop.symbol) = some x) (c : BitVec 64) :
    machine.value (countRound machine loop s x c) (.symbol loop.symbol) = some (x.sshiftRight 1) ∧
      ∃ c', machine.value (countRound machine loop s x c) (.symbol loop.count) = some c' := by
  constructor
  · rw [countRound, machine.value_write_self (Or.inr ⟨_, rfl⟩),
      hWords.kept_between hv (sshiftRight_one_between x)]
  · rw [countRound, machine.value_write_of_ne (by simpa using Ne.symm hApart)]
    exact ⟨_, machine.value_write_self (Or.inr ⟨_, rfl⟩)⟩

theorem IsPopcountLoop.header_le (hIs : IsPopcountLoop instructions h loop) :
    h ≤ instructions.length := by
  obtain ⟨header, hHeader, -⟩ := hIs.headerAt
  exact (List.getElem_of_getElem? hHeader).1.le

theorem copyLength_pos (loop : PopcountLoop) : 0 < copyLength loop := by
  unfold copyLength unrolledStep
  simp

theorem copy_room {k j p : Nat} (hPc : p = h + k * copyLength loop) (hk : k + (j + 1) = 8) :
    p + copyLength loop ≤ h + 8 * copyLength loop := by
  rw [hPc, show 8 = k + 1 + j by omega, Nat.add_mul, Nat.add_mul]
  omega

theorem sshiftRight_one_toNat (hByte : x.toNat < 256) : (x.sshiftRight 1).toNat = x.toNat / 2 := by
  have hMsb : x.msb = false := by
    rw [msb_eq_false_iff_two_mul_lt]
    omega
  rw [toNat_sshiftRight_of_msb_false hMsb, Nat.shiftRight_eq_div_pow]

theorem toNat_lt_of_sshiftRight (hZero : x.sshiftRight 8 = 0) : x.toNat < 256 := by
  have hInt : (x.sshiftRight 8).toInt = 0 := by rw [hZero]; rfl
  rw [toInt_sshiftRight, Int.shiftRight_eq_div_pow] at hInt
  have hNonneg : 0 ≤ x.toInt ∧ x.toInt < 256 := by
    omega
  rw [toInt_eq_toNat_cond] at hNonneg
  split at hNonneg <;> omega

section

variable (hWords : SignedWords machine) (hCasts : CopyCasts machine)
  (hIs : IsPopcountLoop instructions h loop)
include hWords hCasts hIs

theorem fold_ends (hApart : loop.symbol ≠ loop.count) (j : Nat) :
    ∀ (k : Nat) (e : IRState (BitVec 64) M) (y c : BitVec 64), k + j = 8 →
      e.pc = h + k * copyLength loop → machine.value e (.symbol loop.symbol) = some y →
      machine.value e (.symbol loop.count) = some c →
      ∃ t, Through machine (foldPopcount instructions h loop) h (h + 8 * copyLength loop) e t ∧
        t.pc = h + 8 * copyLength loop ∧
        machine.value t (.symbol loop.symbol) = some (y.sshiftRight j) := by
  induction j with
  | zero =>
    intro k e y c hk hPc hv _
    obtain rfl : k = 8 := by omega
    exact ⟨e, .refl e, hPc, by rw [sshiftRight_zero]; exact hv⟩
  | succ j ih =>
    intro k e y c hk hPc hv hc
    have hBlock : BlockAt (foldPopcount instructions h loop) e.pc (unrolledStep h loop k) :=
      hPc ▸ foldPopcount_blockAt hIs.header_le (by omega)
    have hRoom := copy_room hPc hk
    have hPos := copyLength_pos loop
    by_cases hZero : y = 0
    · subst hZero
      refine ⟨_, unrolled_exit hWords hBlock (by omega) (by omega) hv (foldPopcount_done hIs), rfl,
        ?_⟩
      rw [machine.value_pc, hv]
      exact congrArg some zero_sshiftRight.symm
    · have hFrom : h ≤ e.pc := by omega
      obtain ⟨r, hStep, hrPc, hRound⟩ :=
        unrolled_step hWords hCasts hApart hBlock hFrom hRoom hv hZero hc
      obtain ⟨hrv, c', hrc⟩ := countRound_values hWords hApart hv c
      obtain ⟨t, hRest, hEnd, hLeft⟩ := ih (k + 1) r _ _ (by omega)
        (by rw [hrPc, hPc, Nat.succ_mul]; omega) ((hRound.value _).trans hrv)
        ((hRound.value _).trans hrc)
      refine ⟨t, hStep.trans hRest, hEnd, ?_⟩
      rw [hLeft, ← sshiftRight_add, Nat.add_comm]

theorem rounds_agree (hCounts : CountsBits machine instructions h loop) (j : Nat) :
    ∀ (k : Nat) (e e' : IRState (BitVec 64) M) (y c : BitVec 64), k + j = 8 → e.pc = h →
      e'.pc = h + k * copyLength loop → SameSymbols e' e →
      machine.value e (.symbol loop.symbol) = some y →
      machine.value e (.symbol loop.count) = some c → y.toNat < 2 ^ j →
      ∃ t t', Through machine instructions h (loop.jumpIndex + 1) e t ∧ t.pc = loop.doneIndex ∧
        Through machine (foldPopcount instructions h loop) h (h + 8 * copyLength loop) e' t' ∧
        t'.pc = h + 8 * copyLength loop ∧ SameSymbols t' t := by
  induction j with
  | zero =>
    intro k e e' y c hk hPc hPc' hSame hv _ hLt
    obtain rfl : k = 8 := by omega
    obtain rfl : y = 0 := eq_of_toNat_eq (by simpa using hLt)
    exact ⟨_, e', loop_exit hWords hIs hPc hv, rfl, .refl e', hPc',
      ⟨hSame.locals, hSame.memory, hSame.trace⟩⟩
  | succ j ih =>
    intro k e e' y c hk hPc hPc' hSame hv hc hLt
    have hBlock : BlockAt (foldPopcount instructions h loop) e'.pc (unrolledStep h loop k) :=
      hPc' ▸ foldPopcount_blockAt hIs.header_le (by omega)
    have hRoom := copy_room hPc' hk
    have hPos := copyLength_pos loop
    by_cases hZero : y = 0
    · subst hZero
      exact ⟨_, _, loop_exit hWords hIs hPc hv, rfl,
        unrolled_exit hWords hBlock (by omega) (by omega) ((hSame.value _).trans hv)
          (foldPopcount_done hIs), rfl, ⟨hSame.locals, hSame.memory, hSame.trace⟩⟩
    · have hByte : y.toNat < 256 := by
        have hPow : 2 ^ (j + 1) ≤ 2 ^ 8 := Nat.pow_le_pow_right (by omega) (by omega)
        omega
      obtain ⟨r, hOld, hrPc, hRound⟩ := loop_round hWords hIs hCounts hPc hv hZero hByte hc
      have hFrom : h ≤ e'.pc := by omega
      obtain ⟨r', hNew, hrPc', hRound'⟩ := unrolled_step hWords hCasts hCounts.apart hBlock
        hFrom hRoom ((hSame.value _).trans hv) hZero ((hSame.value _).trans hc)
      have hSame' : SameSymbols r' r :=
        (hRound'.trans ((hSame.write_symbol loop.count _).write_symbol loop.symbol _)).trans
          hRound.symm
      obtain ⟨hrv, c', hrc⟩ := countRound_values hWords hCounts.apart hv c
      obtain ⟨t, t', hRest, hEnd, hRest', hEnd', hAgree⟩ := ih (k + 1) r r' _ _ (by omega) hrPc
        (by rw [hrPc', hPc', Nat.succ_mul]; omega) hSame' ((hRound.value _).trans hrv)
        ((hRound.value _).trans hrc) (by rw [sshiftRight_one_toNat hByte]; omega)
      exact ⟨t, t', hOld.trans hRest, hEnd, hNew.trans hRest', hEnd', hAgree⟩

end

/-- Loop and copies come to the label behind the loop with the same symbols and memory. -/
def FoldAgrees (machine : Machine (BitVec 64) M) (instructions : List IRInstruction) (h : Nat)
    (loop : PopcountLoop) (s : IRState (BitVec 64) M) : Prop :=
  ∃ t t', Through machine instructions h (loop.jumpIndex + 1) s t ∧ t.pc = loop.doneIndex ∧
    Through machine (foldPopcount instructions h loop) h (h + 8 * copyLength loop) s t' ∧
    t'.pc = h + 8 * copyLength loop ∧ SameSymbols t' t

/-- **Exact for bytes only.** A loop that counts bits and is folded leaves the same symbols as
its copies, if and only if it starts with a byte. -/
theorem popcountFold_exact_iff (hWords : SignedWords machine) (hCasts : CopyCasts machine)
    (hLoop : popcountLoopAt instructions h = some loop)
    (hCounts : CountsBits machine instructions h loop) (hPc : s.pc = h) {x c : BitVec 64}
    (hv : machine.value s (.symbol loop.symbol) = some x)
    (hc : machine.value s (.symbol loop.count) = some c) :
    FoldAgrees machine instructions h loop s ↔ x.toNat < 256 := by
  have hIs := popcountLoopAt_spec hLoop
  obtain ⟨hLe, -⟩ := findNextNonNop_spec hIs.branchFound
  have hAfter := hIs.after
  have hPc' : s.pc = h + 0 * copyLength loop := by rw [Nat.zero_mul, Nat.add_zero, hPc]
  constructor
  · rintro ⟨t, t', hOld, hEnd, hNew, hEnd', hSame⟩
    obtain ⟨r, hRun, hrPc, hLeft⟩ := fold_ends hWords hCasts hIs hCounts.apart 8 0 s x c rfl hPc' hv hc
    obtain rfl : r = t' := hRun.unique hNew (by omega) (by omega)
    have hZero := loop_exit_zero hWords hIs hCounts hOld (by omega) (by omega) hEnd
    rw [← hSame.value, hLeft] at hZero
    exact toNat_lt_of_sshiftRight (some.inj hZero)
  · intro hByte
    exact rounds_agree hWords hCasts hIs hCounts 8 0 s s x c rfl hPc hPc' (SameSymbols.refl s) hv hc
      hByte

end Loop

/-- `while (v) { count += v & 1; v >>= 1; } return count;` -/
def bitLoop : IRFunction :=
  { name := "f", parameterNames := ["v", "count"]
    instructions :=
      [{ op := .label, text := some "head" },
       { op := .branchZero, lhs := .symbol "v", text := some "done" },
       { op := .binary, text := some "&", dest := .temp "b", lhs := .symbol "v", rhs := .int 1 },
       { op := .binary, text := some "+", dest := .symbol "count", lhs := .symbol "count"
         rhs := .temp "b" },
       { op := .binary, text := some ">>", dest := .symbol "v", lhs := .symbol "v"
         rhs := .int 1 },
       { op := .jump, text := some "head" },
       { op := .label, text := some "done" },
       { op := .return_, lhs := .symbol "count" }] }

def bitLoopMatch : PopcountLoop :=
  { symbol := "v", count := "count", header := "head", done := "done", branchIndex := 1
    jumpIndex := 5, doneIndex := 6, useInt32Cast := false, useUint8Cast := false }

def bitStart (v : BitVec 64) : IRState (BitVec 64) Cells :=
  cellStart (fun x => if x = "v" then some v else some 0) id

theorem bitLoop_counts (resident : String → Bool) :
    CountsBits (cellMachine resident) bitLoop.instructions 0 bitLoopMatch where
  header := by decide
  apart := by decide
  straight := by
    have hAll : ∀ q < 8, ∀ c ∈ bitLoop.instructions[q]?, bitLoopMatch.branchIndex < q →
        q < bitLoopMatch.jumpIndex → c.mayJump = false := by decide
    intro q c hc
    exact hAll q (List.getElem_of_getElem? hc).1 c hc
  round := by
    intro s x c hPc hv _ _ hc
    have hWords := cellMachine_signed resident
    have hStart : Comes (cellMachine resident) bitLoop.instructions 2 5 s s 2 s :=
      ⟨.refl s, hPc, .refl s⟩
    obtain ⟨r, hr, hBit⟩ := hStart.temp rfl (by omega) (by omega) rfl rfl
      (compute_binary hWords hv rfl rfl)
    obtain ⟨q, hq⟩ := hr.symbol rfl (by omega) (by omega) rfl rfl
      (compute_binary hWords ((hr.same.value _).trans hc) hBit rfl)
    have hqv : (cellMachine resident).value q (.symbol "v") = some x := by
      rw [hq.same.value, Machine.value_write_of_ne _ (show IROperand.symbol "v" ≠ .symbol "count" by
        decide)]
      exact hv
    obtain ⟨u, hu⟩ := hq.symbol rfl (by omega) (by omega) rfl rfl
      (compute_binary hWords hqv rfl rfl)
    exact ⟨u, hu.through, hu.pc, hu.same⟩

theorem popcountFold_exact_iff_five : popcountLoopAt bitLoop.instructions 0 = some bitLoopMatch ∧
      (FoldAgrees (cellMachine fun _ => false) bitLoop.instructions 0 bitLoopMatch (bitStart 5) ↔
        (5 : BitVec 64).toNat < 256) := by
  refine ⟨by decide, ?_⟩
  refine popcountFold_exact_iff (c := 0) (cellMachine_signed _) ⟨fun _ => rfl, fun _ => rfl⟩ ?_
    (bitLoop_counts _) rfl rfl rfl
  decide

/-- **The ninth bit is lost.** The loop finds one bit in 256, its copies none. -/
theorem popcount_of_256 :
    ((cellMachine fun _ => false).run bitLoop.instructions 60 (.running (bitStart 256))).value =
        some 1 ∧
      ((cellMachine fun _ => false).run (irFoldPopcountByteLoopPass bitLoop).instructions 60
        (.running (bitStart 256))).value = some 0 :=
  ⟨by decide, by decide⟩

end Mettle.IR
