import Mettle.IR.SumLoop

/-!
# Mettle — two Collatz steps at once

The pass of `ir/ir_optimize.c` that looks for
`while (x > 1) { if (x % 2 == 0) x = x / 2; else x = 3 * x + 1; count = count + 1; }` and halves
`x` right behind `3 * x + 1`, as what comes out is even. The count goes into the arms: by 1 in
the even one, by 2 in the odd one. The test of `x > 1` that stood between the two steps is
skipped.
-/

namespace Mettle.IR

open List BitVec Mettle.Lib

-- ---
-- The matcher
-- ---

def IRInstruction.isInteger (c : IRInstruction) (op : String) : Bool :=
  c.op == .binary && !c.isFloat && c.text == some op

/-- `guard = x > 1`: the symbol and the temp. -/
def collatzGuard (c : IRInstruction) : Option (String × String) :=
  match c.lhs, c.dest with
  | .symbol x, .temp guard =>
    if c.isInteger ">" = true ∧ c.rhs = .int 1 then some (x, guard) else none
  | _, _ => none

/-- `ir_instruction_is_parity_source`: what is written needs no more than a name. -/
def isParitySource (x : String) (c : IRInstruction) : Bool :=
  c.dest.name.isSome && ((c.isInteger "&" && c.lhs == .symbol x && c.rhs == .int 1) ||
      (c.isInteger "%" && c.lhs == .symbol x && c.rhs == .int 2))

/-- `even = parity == 0`. -/
def evenCompare (parity : String) (c : IRInstruction) : Option String :=
  match c.dest with
  | .temp even =>
    if c.isInteger "==" = true ∧ c.lhs = .temp parity ∧ c.rhs = .int 0 then some even else none
  | _ => none

/-- `x = x >> 1` or `x = x / 2`. -/
def isEvenStep (x : String) (c : IRInstruction) : Bool :=
  c.dest == .symbol x && c.lhs == .symbol x &&
    ((c.isInteger ">>" && c.rhs == .int 1) || (c.isInteger "/" && c.rhs == .int 2))

def IRInstruction.hasOperands (c : IRInstruction) (a b : IROperand) : Bool :=
  (c.lhs == a && c.rhs == b) || (c.rhs == a && c.lhs == b)

/-- `product = 3 * x`. -/
def oddMul (x : String) (c : IRInstruction) : Option String :=
  match c.dest with
  | .temp product =>
    if c.isInteger "*" = true ∧ c.hasOperands (.int 3) (.symbol x) = true then some product
    else none
  | _ => none

/-- `x = product + 1`. -/
def isOddAdd (x product : String) (c : IRInstruction) : Bool :=
  c.isInteger "+" && c.dest == .symbol x && c.hasOperands (.temp product) (.int 1)

/-- `count = count + 1`. -/
def countInc (c : IRInstruction) : Option String :=
  match c.dest with
  | .symbol count =>
    if c.isInteger "+" = true ∧ c.hasOperands (.symbol count) (.int 1) = true then some count
    else none
  | _ => none

/-- A loop that is folded: its names, and where its instructions stand. -/
structure CollatzLoop where
  symbol : String
  count : String
  header : String
  done : Option String
  odd : String
  join : String
  parity : String
  guardIndex : Nat
  branchIndex : Nat
  parityIndex : Nat
  compareIndex : Nat
  evenBranchIndex : Nat
  evenStepIndex : Nat
  evenJumpIndex : Nat
  oddIndex : Nat
  mulIndex : Nat
  addIndex : Nat
  joinIndex : Nat
  countIndex : Nat
  backIndex : Nat
  evenStep : IRInstruction
  countInc : IRInstruction
  deriving DecidableEq

def jumpsTo (name : String) (c : IRInstruction) : Bool := c.op == .jump && c.text == some name

def branchesOn (temp : String) (c : IRInstruction) : Bool :=
  c.op == .branchZero && c.lhs == .temp temp

/-- The loop that `ir_try_fold_collatz_odd_step_at` finds at a header. -/
def collatzLoopAt (instructions : List IRInstruction) (h : Nat) : Option CollatzLoop := do
  let header ← (← instructions[h]?).labelName
  let guardIndex ← findNextNonNop instructions (h + 1)
  let (symbol, guard) ← collatzGuard (← instructions[guardIndex]?)
  let branchIndex ← nextIs instructions (guardIndex + 1) (branchesOn guard)
  let branch ← instructions[branchIndex]?
  let parityIndex ← nextIs instructions (branchIndex + 1) (isParitySource symbol)
  let parity ← (← instructions[parityIndex]?).dest.name
  let compareIndex ← findNextNonNop instructions (parityIndex + 1)
  let even ← evenCompare parity (← instructions[compareIndex]?)
  let evenBranchIndex ← nextIs instructions (compareIndex + 1) (branchesOn even)
  let odd ← (← instructions[evenBranchIndex]?).text
  let evenStepIndex ← nextIs instructions (evenBranchIndex + 1) (isEvenStep symbol)
  let evenStep ← instructions[evenStepIndex]?
  let evenJumpIndex ← nextIs instructions (evenStepIndex + 1) fun c => c.op == .jump
  let join ← (← instructions[evenJumpIndex]?).text
  let oddIndex ← labelIndex instructions odd
  let joinIndex ← labelIndex instructions join
  let mulIndex ← findNextNonNop instructions (oddIndex + 1)
  let product ← oddMul symbol (← instructions[mulIndex]?)
  let addIndex ← nextIs instructions (mulIndex + 1) (isOddAdd symbol product)
  let nextIndex ← findNextNonNop instructions (addIndex + 1)
  let countIndex ← findNextNonNop instructions (joinIndex + 1)
  let inc ← instructions[countIndex]?
  let count ← countInc inc
  let backIndex ← nextIs instructions (countIndex + 1) (jumpsTo header)
  if evenJumpIndex < oddIndex ∧ oddIndex < joinIndex ∧ nextIndex = joinIndex then
    some { symbol, count, header, done := branch.text, odd, join, parity, guardIndex, branchIndex
           parityIndex, compareIndex, evenBranchIndex, evenStepIndex, evenJumpIndex, oddIndex
           mulIndex, addIndex, joinIndex, countIndex, backIndex, evenStep, countInc := inc }
  else none

-- ---
-- The replacement
-- ---

/-- The halving that is put behind `3 * x + 1`. -/
def CollatzLoop.shift (loop : CollatzLoop) : IRInstruction :=
  { loop.evenStep with text := some ">>", rhs := .int 1 }

def CollatzLoop.countTwice (loop : CollatzLoop) : IRInstruction :=
  if loop.countInc.rhs = .int 1 then { loop.countInc with rhs := .int 2 }
  else { loop.countInc with lhs := .int 2 }

/-- The rewriting of `ir_try_fold_collatz_odd_step_at`. -/
def foldCollatz (instructions : List IRInstruction) (loop : CollatzLoop) : List IRInstruction :=
  (((instructions.insertIdx loop.joinIndex loop.shift).insertIdx (loop.joinIndex + 1)
    loop.countTwice).insertIdx loop.evenJumpIndex loop.countInc).modify (loop.countIndex + 3)
    makeNop

/-- A round of the pass: the function it is working on, and the place it is at. -/
def collatzPassRound : List IRInstruction × Nat → List IRInstruction × Nat ⊕ List IRInstruction
  | (instructions, i) =>
    if i < instructions.length then
      match collatzLoopAt instructions i with
      | some loop => .inl (foldCollatz instructions loop, i + 1)
      | none => .inl (instructions, i + 1)
    else .inr instructions

/-- The loop of `ir_collatz_odd_step_fold_pass` from a place on; `none` if the rounds run out. -/
def collatzFoldLoop (rounds : Nat) (instructions : List IRInstruction) (i : Nat) :
    Option (List IRInstruction) := runLoop collatzPassRound rounds (instructions, i)

/-- The rounds that are left: what is put in is behind a label that is passed. -/
def collatzPassRounds (instructions : List IRInstruction) (i : Nat) : Nat :=
  (instructions.length - i) + 3 * (instructions.drop i).countP fun c => c.op == .label

/-- `ir_collatz_odd_step_fold_pass`. -/
def irCollatzOddStepFoldPass (function : IRFunction) : IRFunction :=
  { function with
    instructions :=
      (collatzFoldLoop (collatzPassRounds function.instructions 0 + 1) function.instructions 0).getD
        function.instructions }

-- ---
-- Words
-- ---

/-- The integer operators of the loop, for words with or without a sign: what is above 1, and
what a half is. -/
structure CollatzWords {M : Type} (machine : Machine (BitVec 64) M) (above : BitVec 64 → Bool)
    (half : BitVec 64 → BitVec 64) : Prop where
  int : ∀ n, machine.int n = BitVec.ofInt 64 n
  isZero : ∀ v, machine.isZero v = (v == 0)
  guard : ∀ a, machine.binary ">" 0 a 1 = some (if above a then 1 else 0)
  bit : ∀ a, machine.binary "&" 0 a 1 = some (a &&& 1)
  rest : ∀ a, ∃ r, machine.binary "%" 0 a 2 = some r ∧ (r = 0 ↔ a &&& 1 = 0)
  equal : ∀ a b, machine.binary "==" 0 a b = some (if a = b then 1 else 0)
  mul : ∀ a b, machine.binary "*" 0 a b = some (a * b)
  add : ∀ a b, machine.binary "+" 0 a b = some (a + b)
  shift : ∀ a, machine.binary ">>" 0 a 1 = some (half a)
  div : ∀ a, above a = true → machine.binary "/" 0 a 2 = some (half a)
  -- what is not above 1 does not get there by halving
  settled : ∀ a, above a = false → above (half a) = false

theorem and_one_eq_zero_iff (a : BitVec 64) : a &&& 1 = 0 ↔ a.toNat % 2 = 0 := by
  rw [← toNat_inj, toNat_and]
  show a.toNat &&& 1 = 0 ↔ _
  rw [Nat.and_one_is_mod]

theorem srem_two_eq_zero_iff (a : BitVec 64) : a.srem 2 = 0 ↔ a &&& 1 = 0 := by
  have hTwo : (2 : BitVec 64).toInt = 2 := by decide
  have hLeft : a.srem 2 = 0 ↔ a.toInt % 2 = 0 := by
    rw [← toInt_inj, toInt_srem, hTwo]
    show a.toInt.tmod 2 = 0 ↔ _
    rw [← Int.dvd_iff_tmod_eq_zero, Int.dvd_iff_emod_eq_zero]
  rw [hLeft, and_one_eq_zero_iff, toInt_eq_toNat_cond]
  split <;> omega

variable {a : BitVec 64}

theorem sshiftRight_not_above (h : (1 : BitVec 64).slt a = false) :
    (1 : BitVec 64).slt (a.sshiftRight 1) = false := by
  have hOne : (1 : BitVec 64).toInt = 1 := by decide
  rw [Bool.eq_false_iff, Ne, slt_iff_toInt_lt, hOne] at h ⊢
  rw [toInt_sshiftRight, Int.shiftRight_eq_div_pow]
  omega

theorem SignedWords.collatz {M : Type} {machine : Machine (BitVec 64) M}
    (hWords : SignedWords machine) :
    CollatzWords machine (fun a => (1 : BitVec 64).slt a) (fun a => a.sshiftRight 1) where
  int := hWords.int
  isZero := hWords.isZero
  guard a := hWords.binary ">" a 1
  bit a := hWords.binary "&" a 1
  rest a := by
    refine ⟨a.srem 2, (hWords.binary "%" a 2).trans ?_, srem_two_eq_zero_iff a⟩
    have hNo : ¬ ((2 : BitVec 64) = 0 ∨ (a = intMin 64 ∧ (2 : BitVec 64) = -1)) := by
      rintro (h | ⟨-, h⟩) <;> exact absurd h (by decide)
    unfold signedBinary
    rw [if_neg (by decide), if_pos rfl, if_neg hNo]
  equal a b := hWords.binary "==" a b
  mul a b := hWords.binary "*" a b
  add a b := hWords.binary "+" a b
  shift a := hWords.binary ">>" a 1
  div a hAbove := by
    rw [hWords.binary, signedBinary_half]
    rw [slt_iff_toInt_lt, show (1 : BitVec 64).toInt = 1 by decide] at hAbove
    rw [sdiv_two_of_nonneg (by omega)]
  settled _ := sshiftRight_not_above

variable {bits : Nat}

/-- A round on the word and on the count, as many bits of it as the counter has. -/
def collatzRound (half : BitVec 64 → BitVec 64) (p : BitVec 64 × BitVec bits) :
    BitVec 64 × BitVec bits :=
  (if p.1 &&& 1 = 0 then half p.1 else 3 * p.1 + 1, p.2 + 1)

def IsOdd (p : BitVec 64 × BitVec bits) : Prop := p.1 &&& 1 ≠ 0

instance : DecidablePred (IsOdd : BitVec 64 × BitVec bits → Prop) :=
  fun p => inferInstanceAs (Decidable (p.1 &&& 1 ≠ 0))

theorem odd_step_even {x : BitVec 64} (h : x &&& 1 ≠ 0) : (3 * x + 1) &&& 1 = 0 := by
  rw [Ne, and_one_eq_zero_iff] at h
  rw [and_one_eq_zero_iff, toNat_add, toNat_mul]
  show (3 * x.toNat % 2 ^ 64 + 1) % 2 ^ 64 % 2 = 0
  omega

/-- A counter of two bits or more does not come back in one round or two. -/
theorem count_ne (hBits : 2 ≤ bits) (n : BitVec bits) : n + 1 ≠ n ∧ n + 2 ≠ n := by
  have hFour : 4 ≤ 2 ^ bits := by
    calc 4 = 2 ^ 2 := rfl
      _ ≤ 2 ^ bits := Nat.pow_le_pow_right (by omega) hBits
  have hSmall : ∀ k < 4, (BitVec.ofNat bits k).toNat = k := by
    intro k hk
    rw [BitVec.toNat_ofNat, Nat.mod_eq_of_lt (by omega)]
  constructor
  · intro hSame
    have hNat := congrArg BitVec.toNat (BitVec.add_right_eq_self.mp hSame)
    rw [hSmall 0 (by omega), show (1 : BitVec bits).toNat = 1 from hSmall 1 (by omega)] at hNat
    cases hNat
  · intro hSame
    have hNat := congrArg BitVec.toNat (BitVec.add_right_eq_self.mp hSame)
    rw [hSmall 0 (by omega), show (2 : BitVec bits).toNat = 2 from hSmall 2 (by omega)] at hNat
    cases hNat

theorem collatzRound_ne (hBits : 2 ≤ bits) (half : BitVec 64 → BitVec 64)
    (p : BitVec 64 × BitVec bits) : collatzRound half p ≠ p := by
  intro hSame
  exact (count_ne hBits p.2).1 (congrArg Prod.snd hSame)

variable {half : BitVec 64 → BitVec 64} {p : BitVec 64 × BitVec bits}

theorem collatzRound_twice (hOdd : IsOdd p) :
    collatzRound half (collatzRound half p) = (half (3 * p.1 + 1), p.2 + 2) := by
  have hEven := odd_step_even hOdd
  simp only [collatzRound, if_neg hOdd, if_pos hEven]
  rw [BitVec.add_assoc]
  congr 2
  exact (BitVec.ofNat_add 1 1).symm

variable {above : BitVec 64 → Bool}

/-- **The skipped test.** -/
theorem collatz_skipping_iff {M : Type} {machine : Machine (BitVec 64) M}
    (hWords : CollatzWords machine above half) (hBits : 2 ≤ bits) (p : BitVec 64 × BitVec bits) :
    Lib.SameEnds (fun p => above p.1 = true) IsOdd (collatzRound half) p ↔
      Lib.HoldsBetween (fun p => above p.1 = true) IsOdd (collatzRound half) p := by
  refine Lib.skipping_iff ?_ ?_ ?_
  · intro p hOdd hTwice
    have hFirst : (collatzRound half p).1 = 3 * p.1 + 1 := if_neg hOdd
    exact hTwice (hFirst ▸ odd_step_even hOdd)
  · intro p hOdd hOff
    have hFirst : (collatzRound half p).1 = 3 * p.1 + 1 := if_neg hOdd
    rw [hFirst, Bool.not_eq_true] at hOff
    rw [collatzRound_twice hOdd, Bool.not_eq_true]
    exact hWords.settled _ hOff
  · intro p
    exact collatzRound_ne hBits half (collatzRound half p)

-- ---
-- Steps of the loop
-- ---

/-- The residents are stored apart from each other: the last write of one counts. -/
structure Overwrites {V M : Type} (machine : Machine V M) : Prop where
  twice : ∀ m x v w, machine.setResident (machine.setResident m x v) x w = machine.setResident m x w
  swap : ∀ m x y v w, x ≠ y → machine.setResident (machine.setResident m x v) y w =
    machine.setResident (machine.setResident m y w) x v
  same : ∀ m x, machine.setResident m x (machine.getResident m x) = m

variable {x : String}

section Writes

variable {V M : Type} {machine : Machine V M}

theorem Overwrites.write_twice (hMemory : Overwrites machine) (s : IRState V M) (x : String)
    (v w : V) : machine.write (machine.write s (.symbol x) v) (.symbol x) w =
      machine.write s (.symbol x) w := by
  unfold Machine.write
  dsimp only
  split
  · rw [hMemory.twice]
  · rw [Function.update_idem]

theorem Overwrites.write_swap (hMemory : Overwrites machine) (s : IRState V M) {y : String}
    (hNe : x ≠ y) (v w : V) : machine.write (machine.write s (.symbol x) v) (.symbol y) w =
      machine.write (machine.write s (.symbol y) w) (.symbol x) v := by
  unfold Machine.write
  dsimp only
  split <;> split
  · dsimp only
    rw [hMemory.swap _ _ _ _ _ hNe]
  · rfl
  · rfl
  · dsimp only
    rw [Function.update_comm hNe.symm]

theorem Overwrites.write_same (hMemory : Overwrites machine) {s : IRState V M} {v : V}
    (hv : machine.value s (.symbol x) = some v) :
    machine.write s (.symbol x) v = s := by
  unfold Machine.value Machine.symbolValue at hv
  dsimp only at hv
  unfold Machine.write
  dsimp only
  split
  · rename_i hResident
    rw [if_pos hResident] at hv
    rw [← Option.some.inj hv, hMemory.same]
  · rename_i hPrivate
    rw [if_neg hPrivate] at hv
    rw [← hv, Function.update_eq_self]

end Writes

/-- An instruction stands at `k`, and from `start` to it there are nops. -/
structure FirstFrom (code : List IRInstruction) (start k : Nat) (c : IRInstruction) : Prop where
  le : start ≤ k
  at_ : code[k]? = some c
  nops : ∀ q, start ≤ q → q < k → ∃ d, code[q]? = some d ∧ d.op = .nop

variable {code : List IRInstruction} {start k : Nat} {c : IRInstruction}

theorem firstFrom_of_find (h : findNextNonNop code start = some k) (hc : code[k]? = some c) :
    FirstFrom code start k c := by
  obtain ⟨hLe, -, hNops⟩ := findNextNonNop_spec h
  exact ⟨hLe, hc, hNops⟩

theorem firstFrom_of_nextIs {kind : IRInstruction → Bool} (h : nextIs code start kind = some k) :
    ∃ c, FirstFrom code start k c ∧ kind c = true := by
  obtain ⟨hLe, ⟨c, hc, hKind⟩, hNops⟩ := nextIs_spec h
  exact ⟨c, ⟨hLe, hc, hNops⟩, hKind⟩

variable {loop : CollatzLoop} {product : String}

variable {op name : String} {y v : BitVec 64} {M : Type} {machine : Machine (BitVec 64) M}
  {h lo hi donePlace : Nat} {s : IRState (BitVec 64) M}
  {done guard even : String}

section Steps

section

variable (hFirst : FirstFrom code s.pc k c) (hLo : lo ≤ s.pc) (hHi : k < hi)
include hFirst hLo hHi

theorem FirstFrom.through_nops : Through machine code lo hi s { s with pc := k } := by
  refine through_idle hLo hFirst.le (by omega) ?_
  intro q hq hLt
  obtain ⟨d, hd, hNop⟩ := hFirst.nops q hq hLt
  exact ⟨d, hd, Or.inl hNop⟩

section

variable {x : BitVec 64} (hOp : c.isInteger op = true) (hPlain : op ≠ "+" ∨ c.astRef = false)
  (hx : machine.value s c.lhs = some x) (hy : machine.value s c.rhs = some y)
  (hv : machine.binary op 0 x y = some v)
include hOp hPlain hx hy hv

theorem FirstFrom.through_integer :
    Through machine code lo hi s (machine.write { s with pc := k } c.dest v).next := by
  obtain ⟨⟨hBinary, hInt⟩, hText⟩ : (c.op = .binary ∧ c.isFloat = false) ∧ c.text = some op := by
    simpa [IRInstruction.isInteger] using hOp
  have hLe := hFirst.le
  refine (hFirst.through_nops hLo hHi).trans
    (through_pure hFirst.at_ (by dsimp only; omega) hHi (by rw [hBinary]; rfl) ?_)
  have hOperate : machine.operate c op x y = machine.binary op c.floatWidth x y :=
    hPlain.elim (machine.operate_of_ne) machine.operate_plain
  rw [Machine.compute, hBinary]
  rw [machine.value_pc, hx, machine.value_pc, hy, hText]
  dsimp only
  rw [hOperate, IRInstruction.floatWidth, hInt]
  exact hv

theorem FirstFrom.through_temp {temp : String} (hDest : c.dest = .temp temp) :
    ∃ t, Through machine code lo hi s t ∧ t.pc = k + 1 ∧ SameSymbols t s ∧
      machine.value t (.temp temp) = some v := by
  refine ⟨_, hFirst.through_integer hLo hHi hOp hPlain hx hy hv, ?_, ?_, ?_⟩
  · rw [IRState.next, Machine.write_pc]
  · rw [hDest]
    exact ⟨rfl, rfl, rfl⟩
  · rw [hDest, machine.value_next]
    exact machine.value_write_temp _

theorem FirstFrom.through_symbol (hDest : c.dest = .symbol name) :
    ∃ t, Through machine code lo hi s t ∧ t.pc = k + 1 ∧
      SameSymbols t (machine.write s (.symbol name) v) := by
  refine ⟨_, hFirst.through_integer hLo hHi hOp hPlain hx hy hv, ?_, ?_⟩
  · rw [IRState.next, Machine.write_pc]
  · have hSame : SameSymbols { s with pc := k } s := ⟨rfl, rfl, rfl⟩
    rw [hDest]
    exact (hSame.write_symbol name v).next

end

theorem FirstFrom.through_branch {temp : String} (hOp : branchesOn temp c = true)
    (hZero : ∀ v, machine.isZero v = (v == 0)) (hv : machine.value s (.temp temp) = some v)
    (hText : c.text = some name) {place : Nat} (hPlace : labelIndex code name = some place) :
    Through machine code lo hi s { s with pc := if v = 0 then place else k + 1 } := by
  obtain ⟨hBranch, hLhs⟩ : c.op = .branchZero ∧ c.lhs = .temp temp := by
    simpa [branchesOn] using hOp
  have hLe := hFirst.le
  refine (hFirst.through_nops hLo hHi).trans (Through.one hFirst.at_ (by dsimp only; omega) hHi ?_)
  rw [Machine.execute, hBranch, hLhs]
  rw [machine.value_pc, hv]
  dsimp only
  rw [hZero, hText, jumpTo, hPlace]
  by_cases h : v = 0
  · rw [if_pos (beq_iff_eq.mpr h), if_pos h]
  · rw [if_neg (by simpa using h), if_neg h]
    rfl

theorem FirstFrom.through_jump (hOp : c.op = .jump) (hText : c.text = some name) {place : Nat}
    (hPlace : labelIndex code name = some place) :
    Through machine code lo hi s { s with pc := place } := by
  have hLe := hFirst.le
  refine (hFirst.through_nops hLo hHi).trans (Through.one hFirst.at_ (by dsimp only; omega) hHi ?_)
  rw [Machine.execute, hOp]
  rw [hText, jumpTo, hPlace]

end

end Steps

-- ---
-- The tests
-- ---

/-- The tests of a loop: of `x > 1` and of the parity. -/
structure CollatzTest (code : List IRInstruction) (h hi : Nat) (loop : CollatzLoop)
    (done : String) (donePlace oddPlace : Nat) (guard even : String) : Prop where
  header : ∃ c, code[h]? = some c ∧ c.op = .label
  guardAt : ∃ c, FirstFrom code (h + 1) loop.guardIndex c ∧
    collatzGuard c = some (loop.symbol, guard)
  branchAt : ∃ c, FirstFrom code (loop.guardIndex + 1) loop.branchIndex c ∧
    branchesOn guard c = true ∧ c.text = some done
  doneAt : labelIndex code done = some donePlace
  parityAt : ∃ c, FirstFrom code (loop.branchIndex + 1) loop.parityIndex c ∧
    isParitySource loop.symbol c = true ∧ c.dest = .temp loop.parity
  compareAt : ∃ c, FirstFrom code (loop.parityIndex + 1) loop.compareIndex c ∧
    evenCompare loop.parity c = some even
  evenBranchAt : ∃ c, FirstFrom code (loop.compareIndex + 1) loop.evenBranchIndex c ∧
    branchesOn even c = true ∧ c.text = some loop.odd
  oddAt : labelIndex code loop.odd = some oddPlace
  room : loop.evenBranchIndex < hi

theorem collatzGuard_spec {guard : String} (h : collatzGuard c = some (x, guard)) :
    c.isInteger ">" = true ∧ c.lhs = .symbol x ∧ c.rhs = .int 1 ∧ c.dest = .temp guard := by
  unfold collatzGuard at h
  split at h
  · rename_i hLhs hDest
    split at h
    · rename_i hIs
      cases h
      exact ⟨hIs.1, hLhs, hIs.2, hDest⟩
    · cases h
  · cases h

theorem evenCompare_spec {parity even : String} (h : evenCompare parity c = some even) :
    c.isInteger "==" = true ∧ c.lhs = .temp parity ∧ c.rhs = .int 0 ∧ c.dest = .temp even := by
  unfold evenCompare at h
  split at h
  · rename_i hDest
    split at h
    · rename_i hIs
      cases h
      exact ⟨hIs.1, hIs.2.1, hIs.2.2, hDest⟩
    · cases h
  · cases h

section Test

variable {oddPlace : Nat}

theorem CollatzWords.value_int (hWords : CollatzWords machine above half)
    (r : IRState (BitVec 64) M) (n : Int) :
    machine.value r (.int n) = some (BitVec.ofInt 64 n) := congrArg some (hWords.int n)

theorem through_parity (hWords : CollatzWords machine above half) (hFirst : FirstFrom code s.pc k c)
    (hLo : h ≤ s.pc) (hHi : k < hi) {parity : String} (hIs : isParitySource x c = true)
    (hDest : c.dest = .temp parity) (hx : machine.value s (.symbol x) = some a) :
    ∃ t r, Through machine code h hi s t ∧ t.pc = k + 1 ∧ SameSymbols t s ∧
      machine.value t (.temp parity) = some r ∧ (r = 0 ↔ a &&& 1 = 0) := by
  obtain ⟨-, ⟨⟨hOp, hLhs⟩, hRhs⟩ | ⟨⟨hOp, hLhs⟩, hRhs⟩⟩ : c.dest.name.isSome = true ∧
      (((c.isInteger "&" = true ∧ c.lhs = .symbol x) ∧ c.rhs = .int 1) ∨
        ((c.isInteger "%" = true ∧ c.lhs = .symbol x) ∧ c.rhs = .int 2)) := by
    simpa [isParitySource] using hIs
  · obtain ⟨t, hThrough, hPc, hSame, hv⟩ := hFirst.through_temp hLo hHi hOp (Or.inl (by decide))
      (hLhs ▸ hx) (hRhs ▸ hWords.value_int s 1) (hWords.bit a) hDest
    exact ⟨t, _, hThrough, hPc, hSame, hv, Iff.rfl⟩
  · obtain ⟨r, hRest, hZero⟩ := hWords.rest a
    obtain ⟨t, hThrough, hPc, hSame, hv⟩ := hFirst.through_temp hLo hHi hOp (Or.inl (by decide))
      (hLhs ▸ hx) (hRhs ▸ hWords.value_int s 2) hRest hDest
    exact ⟨t, r, hThrough, hPc, hSame, hv, hZero⟩

section

variable (hTest : CollatzTest code h hi loop done donePlace oddPlace guard even)
include hTest

theorem CollatzTest.order : h < loop.guardIndex ∧ loop.guardIndex < loop.branchIndex ∧
    loop.branchIndex < loop.parityIndex ∧ loop.parityIndex < loop.compareIndex ∧
    loop.compareIndex < loop.evenBranchIndex ∧ loop.evenBranchIndex < hi := by
  obtain ⟨_, hGuard, -⟩ := hTest.guardAt
  obtain ⟨_, hBranch, -⟩ := hTest.branchAt
  obtain ⟨_, hParity, -⟩ := hTest.parityAt
  obtain ⟨_, hCompare, -⟩ := hTest.compareAt
  obtain ⟨_, hEven, -⟩ := hTest.evenBranchAt
  exact ⟨hGuard.le, hBranch.le, hParity.le, hCompare.le, hEven.le, hTest.room⟩

variable (hWords : CollatzWords machine above half)
include hWords

theorem CollatzTest.through_guard (hPc : s.pc = h)
    (hx : machine.value s (.symbol loop.symbol) = some a) :
    ∃ t, Through machine code h hi s t ∧ SameSymbols t s ∧
      t.pc = if above a then loop.branchIndex + 1 else donePlace := by
  obtain ⟨header, hHeader, hLabel⟩ := hTest.header
  obtain ⟨c, hGuard, hIs⟩ := hTest.guardAt
  obtain ⟨hOp, hLhs, hRhs, hDest⟩ := collatzGuard_spec hIs
  obtain ⟨b, hBranch, hOn, hText⟩ := hTest.branchAt
  have hOrder := hTest.order
  have hFirst : Through machine code h hi s { s with pc := h + 1 } := by
    refine through_idle (by omega) (by omega) (by omega) fun q hq hLt => ?_
    obtain rfl : q = h := by omega
    exact ⟨header, hHeader, Or.inr hLabel⟩
  have hValue : machine.value { s with pc := h + 1 } c.lhs = some a := by
    rw [hLhs]
    exact (machine.value_pc s _ _).trans hx
  obtain ⟨t, hSecond, htPc, htSame, htv⟩ := FirstFrom.through_temp hGuard (Nat.le_succ h)
    (show loop.guardIndex < hi by omega) hOp (Or.inl (by decide)) hValue
    (hRhs ▸ hWords.value_int _ 1) (hWords.guard a) hDest
  have hThird := FirstFrom.through_branch (htPc ▸ hBranch) (show h ≤ t.pc by omega)
    (show loop.branchIndex < hi by omega) hOn hWords.isZero htv hText hTest.doneAt
  refine ⟨_, (hFirst.trans hSecond).trans hThird, ⟨htSame.locals, htSame.memory, htSame.trace⟩, ?_⟩
  cases above a <;> rfl

theorem CollatzTest.through_even (hPc : s.pc = loop.branchIndex + 1)
    (hx : machine.value s (.symbol loop.symbol) = some a) :
    ∃ t, Through machine code h hi s t ∧ SameSymbols t s ∧
      t.pc = if a &&& 1 = 0 then loop.evenBranchIndex + 1 else oddPlace := by
  obtain ⟨c, hParity, hIs, hDest⟩ := hTest.parityAt
  obtain ⟨d, hCompare, hIsEven⟩ := hTest.compareAt
  obtain ⟨hOp, hLhs, hRhs, hEvenDest⟩ := evenCompare_spec hIsEven
  obtain ⟨b, hEven, hOn, hText⟩ := hTest.evenBranchAt
  have hOrder := hTest.order
  obtain ⟨t, r, hFirst, htPc, htSame, htv, hZero⟩ := through_parity hWords (hPc ▸ hParity)
    (show h ≤ s.pc by omega) (show loop.parityIndex < hi by omega) hIs hDest hx
  obtain ⟨u, hSecond, huPc, huSame, huv⟩ := FirstFrom.through_temp (htPc ▸ hCompare)
    (show h ≤ t.pc by omega) (show loop.compareIndex < hi by omega) hOp (Or.inl (by decide))
    (hLhs ▸ htv) (hRhs ▸ hWords.value_int t 0) (hWords.equal r _) hEvenDest
  have hThird := FirstFrom.through_branch (huPc ▸ hEven) (show h ≤ u.pc by omega)
    (show loop.evenBranchIndex < hi by omega) hOn hWords.isZero huv hText hTest.oddAt
  have hSame := huSame.trans htSame
  refine ⟨_, (hFirst.trans hSecond).trans hThird, ⟨hSame.locals, hSame.memory, hSame.trace⟩, ?_⟩
  by_cases hBit : a &&& 1 = 0
  · have hIsZero : r = BitVec.ofInt 64 0 := hZero.mpr hBit
    rw [if_pos hBit, if_pos hIsZero]
    rfl
  · have hNot : ¬ r = BitVec.ofInt 64 0 := fun h => hBit (hZero.mp h)
    rw [if_neg hBit, if_neg hNot]
    rfl

end

end Test

-- ---
-- The arms
-- ---

theorem hasOperands_iff {a b : IROperand} :
    c.hasOperands a b = true ↔ (c.lhs = a ∧ c.rhs = b) ∨ (c.rhs = a ∧ c.lhs = b) := by
  simp [IRInstruction.hasOperands]

/-- `count = count + n`. -/
def AddsTo (count : String) (n : Int) (c : IRInstruction) : Prop :=
  c.isInteger "+" = true ∧ c.hasOperands (.symbol count) (.int n) = true ∧ c.dest = .symbol count

theorem countInc_spec {count : String} (h : countInc c = some count) :
    AddsTo count 1 c := by
  unfold countInc at h
  split at h
  · rename_i hDest
    split at h
    · rename_i hIs
      cases h
      exact ⟨hIs.1, hIs.2, hDest⟩
    · cases h
  · cases h

theorem oddMul_spec (h : oddMul x c = some product) :
    c.isInteger "*" = true ∧ c.hasOperands (.int 3) (.symbol x) = true ∧
      c.dest = .temp product := by
  unfold oddMul at h
  split at h
  · rename_i hDest
    split at h
    · rename_i hIs
      cases h
      exact ⟨hIs.1, hIs.2, hDest⟩
    · cases h
  · cases h

theorem countTwice_adds (h : countInc loop.countInc = some loop.count) :
    AddsTo loop.count 2 loop.countTwice := by
  obtain ⟨hOp, hBoth, hDest⟩ := countInc_spec h
  unfold CollatzLoop.countTwice
  split
  · rename_i hRhs
    refine ⟨hOp, ?_, hDest⟩
    rcases hasOperands_iff.mp hBoth with ⟨hSymbol, -⟩ | ⟨hSymbol, -⟩
    · exact hasOperands_iff.mpr (Or.inl ⟨hSymbol, rfl⟩)
    · rw [hRhs] at hSymbol
      cases hSymbol
  · rename_i hRhs
    refine ⟨hOp, ?_, hDest⟩
    rcases hasOperands_iff.mp hBoth with ⟨-, hOne⟩ | ⟨hSymbol, -⟩
    · exact absurd hOne hRhs
    · exact hasOperands_iff.mpr (Or.inr ⟨hSymbol, rfl⟩)

theorem countTwice_plain (hPlain : loop.countInc.astRef = false) :
    loop.countTwice.astRef = false := by
  unfold CollatzLoop.countTwice
  split <;> exact hPlain

section Arms

theorem through_label (hLabel : ∃ c, code[s.pc]? = some c ∧ c.op = .label) (hLo : lo ≤ s.pc)
    (hHi : s.pc < hi) : Through machine code lo hi s { s with pc := s.pc + 1 } := by
  refine through_idle hLo (by omega) (by omega) fun q hq hLt => ?_
  obtain rfl : q = s.pc := by omega
  obtain ⟨c, hc, hOp⟩ := hLabel
  exact ⟨c, hc, Or.inr hOp⟩

theorem values_of_hasOperands {a b : IROperand} (hBoth : c.hasOperands a b = true) {x : BitVec 64}
    (hx : machine.value s a = some x) (hy : machine.value s b = some y)
    (hComm : irBinaryOpIsCommutative op = true) (hv : machine.binary op 0 x y = some v) :
    ∃ x' y', machine.value s c.lhs = some x' ∧ machine.value s c.rhs = some y' ∧
      machine.binary op 0 x' y' = some v := by
  obtain ⟨hLhs, hRhs⟩ | ⟨hRhs, hLhs⟩ := hasOperands_iff.mp hBoth
  · exact ⟨x, y, hLhs ▸ hx, hRhs ▸ hy, hv⟩
  · exact ⟨y, x, hLhs ▸ hy, hRhs ▸ hx, machine.binary_comm op 0 x y hComm ▸ hv⟩

section

variable (hFirst : FirstFrom code s.pc k c) (hWords : CollatzWords machine above half)
  (hLo : lo ≤ s.pc) (hHi : k < hi)
include hFirst hWords hLo hHi

theorem FirstFrom.through_adds {count : String} {n : Int} (hAdds : AddsTo count n c)
    (hPlain : c.astRef = false) {b : BitVec 64} (hc : machine.value s (.symbol count) = some b) :
    ∃ t, Through machine code lo hi s t ∧ t.pc = k + 1 ∧
      SameSymbols t (machine.write s (.symbol count) (b + BitVec.ofInt 64 n)) := by
  obtain ⟨hOp, hBoth, hDest⟩ := hAdds
  obtain ⟨_, _, hx, hy, hv⟩ := values_of_hasOperands hBoth hc (hWords.value_int s n) rfl
    (hWords.add b (BitVec.ofInt 64 n))
  exact hFirst.through_symbol hLo hHi hOp (Or.inr hPlain) hx hy hv hDest

theorem FirstFrom.through_half (hIs : isEvenStep x c = true)
    (hx : machine.value s (.symbol x) = some a) (hAbove : above a = true) :
    ∃ t, Through machine code lo hi s t ∧ t.pc = k + 1 ∧
      SameSymbols t (machine.write s (.symbol x) (half a)) := by
  obtain ⟨⟨hDest, hLhs⟩, ⟨hOp, hRhs⟩ | ⟨hOp, hRhs⟩⟩ : (c.dest = .symbol x ∧ c.lhs = .symbol x) ∧
      ((c.isInteger ">>" = true ∧ c.rhs = .int 1) ∨ (c.isInteger "/" = true ∧ c.rhs = .int 2)) := by
    simpa [isEvenStep] using hIs
  · exact hFirst.through_symbol hLo hHi hOp (Or.inl (by decide)) (hLhs ▸ hx)
      (hRhs ▸ hWords.value_int s 1) (hWords.shift a) hDest
  · exact hFirst.through_symbol hLo hHi hOp (Or.inl (by decide)) (hLhs ▸ hx)
      (hRhs ▸ hWords.value_int s 2) (hWords.div a hAbove) hDest

end

theorem through_odd_step (hWords : CollatzWords machine above half) {d : IRInstruction}
    (hLabel : ∃ c, code[s.pc]? = some c ∧ c.op = .label) {m : Nat}
    (hMul : FirstFrom code (s.pc + 1) m c) (hAdd : FirstFrom code (m + 1) k d) (hLo : lo ≤ s.pc)
    (hHi : k < hi) (hIsMul : oddMul x c = some product)
    (hIsAdd : isOddAdd x product d = true) (hPlain : d.astRef = false)
    (hx : machine.value s (.symbol x) = some a) :
    ∃ t, Through machine code lo hi s t ∧ t.pc = k + 1 ∧
      SameSymbols t (machine.write s (.symbol x) (3 * a + 1)) := by
  have hLeMul := hMul.le
  have hLeAdd := hAdd.le
  have hFirst : Through machine code lo hi s { s with pc := s.pc + 1 } :=
    through_label hLabel hLo (by omega)
  obtain ⟨hOp, hBoth, hDest⟩ := oddMul_spec hIsMul
  have hStart : machine.value { s with pc := s.pc + 1 } (.symbol x) = some a :=
    (machine.value_pc s _ _).trans hx
  obtain ⟨_, _, hLeft, hRight, hv⟩ := values_of_hasOperands hBoth (hWords.value_int _ 3) hStart rfl
    (hWords.mul _ a)
  obtain ⟨t, hSecond, htPc, htSame, htv⟩ := hMul.through_temp (show lo ≤ s.pc + 1 by omega)
    (show m < hi by omega) hOp (Or.inl (by decide)) hLeft hRight hv hDest
  obtain ⟨⟨hAddOp, hAddDest⟩, hAddBoth⟩ : (d.isInteger "+" = true ∧ d.dest = .symbol x) ∧
        d.hasOperands (.temp product) (.int 1) = true := by
    simpa [isOddAdd] using hIsAdd
  obtain ⟨_, _, hLeft', hRight', hv'⟩ := values_of_hasOperands hAddBoth htv (hWords.value_int t 1)
    rfl (hWords.add _ _)
  obtain ⟨u, hThird, huPc, huSame⟩ := FirstFrom.through_symbol (htPc ▸ hAdd)
    (show lo ≤ t.pc by omega) hHi hAddOp (Or.inr hPlain) hLeft' hRight' hv' hAddDest
  have hSame : SameSymbols t s := ⟨htSame.locals, htSame.memory, htSame.trace⟩
  exact ⟨u, (hFirst.trans hSecond).trans hThird, huPc, huSame.trans (hSame.write_symbol x _)⟩

theorem through_back {h : Nat} {header : String} (hLabel : ∃ c, code[s.pc]? = some c ∧ c.op = .label)
    (hBack : FirstFrom code (s.pc + 1) k c) (hIs : jumpsTo header c = true) (hLo : lo ≤ s.pc)
    (hHi : k < hi) (hHeader : labelIndex code header = some h) :
    Through machine code lo hi s { s with pc := h } := by
  have hLe := hBack.le
  have hFirst : Through machine code lo hi s { s with pc := s.pc + 1 } :=
    through_label hLabel hLo (by omega)
  obtain ⟨hJump, hText⟩ : c.op = .jump ∧ c.text = some header := by simpa [jumpsTo] using hIs
  exact hFirst.trans (hBack.through_jump (show lo ≤ s.pc + 1 by omega) hHi hJump hText hHeader)

end Arms

-- ---
-- Rounds
-- ---

/-- A counter of some width: what is stored in it and what is read of it are its low bits. -/
structure HoldsLow (machine : Machine (BitVec 64) M) (x : String) (bits : Nat) : Prop where
  two : 2 ≤ bits
  le : bits ≤ 64
  write : ∀ s v w, v.setWidth bits = w.setWidth bits →
    machine.write s (.symbol x) v = machine.write s (.symbol x) w
  kept : ∀ v, (machine.kept (.symbol x) v).setWidth bits = v.setWidth bits

theorem setWidth_setWidth (hLe : bits ≤ 64) (n : BitVec bits) :
    (n.setWidth 64).setWidth bits = n := by
  rw [BitVec.setWidth_setWidth_of_le n hLe, BitVec.setWidth_eq]

/-- Counting goes on in the low bits. -/
theorem HoldsLow.write_add (hHolds : HoldsLow machine x bits) {b : BitVec 64} {n : BitVec bits}
    (hb : b.setWidth bits = n) {k : BitVec 64} {l : BitVec bits} (hk : k.setWidth bits = l) :
    machine.write s (.symbol x) (b + k) = machine.write s (.symbol x) ((n + l).setWidth 64) := by
  refine hHolds.write s _ _ ?_
  rw [setWidth_setWidth hHolds.le, BitVec.setWidth_add _ _ hHolds.le, hb, hk]

theorem HoldsLow.literal (hHolds : HoldsLow machine x bits) (k : Nat) :
    (BitVec.ofNat 64 k).setWidth bits = BitVec.ofNat bits k :=
  BitVec.setWidth_ofNat_of_le hHolds.le k

variable {q : BitVec 64 × BitVec bits}

section Rounds

variable {t : IRState (BitVec 64) M}

theorem SameSymbols.value_apart {x y : String} {v : BitVec 64}
    (h : SameSymbols t (machine.write s (.symbol x) v)) (hApart : x ≠ y) :
    machine.value t (.symbol y) = machine.value s (.symbol y) := by
  rw [h.value, machine.value_write_of_ne (by simpa using hApart.symm)]

def HasPair (machine : Machine (BitVec 64) M) (loop : CollatzLoop) (s : IRState (BitVec 64) M)
    (p : BitVec 64 × BitVec bits) : Prop :=
  machine.value s (.symbol loop.symbol) = some p.1 ∧
    ∃ n, machine.value s (.symbol loop.count) = some n ∧ n.setWidth bits = p.2

def settle (machine : Machine (BitVec 64) M) (loop : CollatzLoop) (s : IRState (BitVec 64) M)
    (p : BitVec 64 × BitVec bits) : IRState (BitVec 64) M :=
  machine.write (machine.write s (.symbol loop.count) (p.2.setWidth 64)) (.symbol loop.symbol) p.1

theorem SameSymbols.hasPair (h : SameSymbols t s) (hPair : HasPair machine loop s p) :
    HasPair machine loop t p :=
  ⟨(h.value _).trans hPair.1, hPair.2.imp fun _ hn => ⟨(h.value _).trans hn.1, hn.2⟩⟩

/-- A state has one pair. -/
theorem HasPair.unique (hPair : HasPair machine loop s p) (hOther : HasPair machine loop s q) :
    p = q := by
  obtain ⟨hx, n, hn, hLow⟩ := hPair
  obtain ⟨hx', n', hn', hLow'⟩ := hOther
  obtain rfl := Option.some.inj (hn.symm.trans hn')
  exact Prod.ext (Option.some.inj (hx.symm.trans hx')) (hLow.symm.trans hLow')

theorem SameSymbols.settle (h : SameSymbols t s) (p : BitVec 64 × BitVec bits) :
    SameSymbols (settle machine loop t p) (settle machine loop s p) :=
  (h.write_symbol loop.count _).write_symbol loop.symbol p.1

/-- The word of the loop fills a 64-bit word, and its counter has some bits. -/
structure CollatzWidths (machine : Machine (BitVec 64) M) (loop : CollatzLoop) (bits : Nat) :
    Prop where
  word : ∀ v, machine.kept (.symbol loop.symbol) v = v
  count : HoldsLow machine loop.count bits

theorem settle_hasPair (hWidths : CollatzWidths machine loop bits)
    (hApart : loop.symbol ≠ loop.count) : HasPair machine loop (settle machine loop s p) p := by
  refine ⟨?_, machine.kept (.symbol loop.count) (p.2.setWidth 64), ?_, ?_⟩
  · rw [settle, machine.value_write_self (Or.inr ⟨_, rfl⟩), hWidths.word]
  · rw [settle, machine.value_write_of_ne (by simpa using hApart.symm)]
    exact machine.value_write_self (Or.inr ⟨_, rfl⟩)
  · rw [hWidths.count.kept, setWidth_setWidth hWidths.count.le]

theorem settle_settle (hMemory : Overwrites machine) (hApart : loop.symbol ≠ loop.count) :
    settle machine loop (settle machine loop s p) q = settle machine loop s q := by
  simp only [settle]
  rw [hMemory.write_swap _ hApart, hMemory.write_twice, hMemory.write_twice]

theorem settle_same (hWidths : CollatzWidths machine loop bits) (hMemory : Overwrites machine)
    (hPair : HasPair machine loop s p) : settle machine loop s p = s := by
  obtain ⟨hx, n, hn, hLow⟩ := hPair
  have hCount : machine.write s (.symbol loop.count) (p.2.setWidth 64) =
      machine.write s (.symbol loop.count) n := by
    refine hWidths.count.write s _ _ ?_
    rw [setWidth_setWidth hWidths.count.le, hLow]
  rw [settle, hCount, hMemory.write_same hn, hMemory.write_same hx]

/-- Code that runs a round again and again as long as the word is above 1. -/
structure CollatzRuns (machine : Machine (BitVec 64) M) (above : BitVec 64 → Bool)
    (code : List IRInstruction) (h hi donePlace : Nat) (loop : CollatzLoop)
    (round : BitVec 64 × BitVec bits → BitVec 64 × BitVec bits) : Prop where
  exits : ∀ s (p : BitVec 64 × BitVec bits), s.pc = h → HasPair machine loop s p → above p.1 = false →
    ∃ t, Through machine code h hi s t ∧ SameSymbols t s ∧ t.pc = donePlace
  rounds : ∀ s (p : BitVec 64 × BitVec bits), s.pc = h → HasPair machine loop s p → above p.1 = true →
    ∃ t, Through machine code h hi s t ∧ SameSymbols t (settle machine loop s (round p)) ∧ t.pc = h
  out : ¬ (h ≤ donePlace ∧ donePlace < hi)
  inside : h < hi
  apart : loop.symbol ≠ loop.count
  moves : ∀ p, above p.1 = true → round p ≠ p

variable {round : BitVec 64 × BitVec bits → BitVec 64 × BitVec bits}

/-- Behind the tests of a loop there are its arms: from them the code comes back to the header. -/
theorem CollatzTest.runs {oddPlace : Nat}
    (hTest : CollatzTest code h hi loop done donePlace oddPlace guard even)
    (hWords : CollatzWords machine above half) (hOut : ¬ (h ≤ donePlace ∧ donePlace < hi))
    (hApart : loop.symbol ≠ loop.count) (hMoves : ∀ p, round p ≠ p)
    (hArms : ∀ s p, HasPair machine loop s p → above p.1 = true →
      s.pc = (if p.1 &&& 1 = 0 then loop.evenBranchIndex + 1 else oddPlace) →
      ∃ t, Through machine code h hi s t ∧ SameSymbols t (settle machine loop s (round p)) ∧
        t.pc = h) :
    CollatzRuns machine above code h hi donePlace loop round where
  exits s p hPc hPair hAbove := by
    obtain ⟨t, hThrough, hSame, htPc⟩ := hTest.through_guard hWords hPc hPair.1
    rw [hAbove] at htPc
    exact ⟨t, hThrough, hSame, htPc⟩
  rounds s p hPc hPair hAbove := by
    obtain ⟨r, hGuard, hrSame, hrPc⟩ := hTest.through_guard hWords hPc hPair.1
    rw [hAbove, if_pos rfl] at hrPc
    obtain ⟨u, hParity, huSame, huPc⟩ :=
      hTest.through_even hWords hrPc ((hrSame.value _).trans hPair.1)
    have hSame : SameSymbols u s := huSame.trans hrSame
    obtain ⟨t, hArm, htSame, htPc⟩ := hArms u p (hSame.hasPair hPair) hAbove huPc
    exact ⟨t, (hGuard.trans hParity).trans hArm, htSame.trans (hSame.settle _), htPc⟩
  out := hOut
  inside := by
    have hOrder := hTest.order
    omega
  apart := hApart
  moves p _ := hMoves p

section

variable (hRuns : CollatzRuns machine above code h hi donePlace loop round)
  (hWidths : CollatzWidths machine loop bits) (hMemory : Overwrites machine)
include hRuns hWidths hMemory

theorem CollatzRuns.ends (hEnds : Lib.WhileEnds (fun p => above p.1 = true) round p q)
    (hPc : s.pc = h) (hPair : HasPair machine loop s p) :
    ∃ t, Through machine code h hi s t ∧ SameSymbols t (settle machine loop s q) ∧
      t.pc = donePlace := by
  induction hEnds generalizing s with
  | @done p hDone =>
    obtain ⟨t, hThrough, hSame, htPc⟩ := hRuns.exits s p hPc hPair (Bool.not_eq_true _ ▸ hDone)
    exact ⟨t, hThrough, (settle_same hWidths hMemory hPair).symm ▸ hSame, htPc⟩
  | @again p q hOn _ ih =>
    obtain ⟨r, hRound, hrSame, hrPc⟩ := hRuns.rounds s p hPc hPair hOn
    obtain ⟨t, hRest, htSame, htPc⟩ :=
      ih hrPc (hrSame.hasPair (settle_hasPair hWidths hRuns.apart))
    refine ⟨t, hRound.trans hRest, htSame.trans ?_, htPc⟩
    rw [← settle_settle hMemory hRuns.apart (s := s)]
    exact hrSame.settle q

theorem CollatzRuns.only_ends (hThrough : Through machine code h hi s t) (hEnd : t.pc = donePlace)
    (hPc : s.pc = h) (hPair : HasPair machine loop s p) :
    ∃ q, Lib.WhileEnds (fun p => above p.1 = true) round p q ∧
      SameSymbols t (settle machine loop s q) := by
  have hOut : ¬ (h ≤ t.pc ∧ t.pc < hi) := hEnd ▸ hRuns.out
  obtain ⟨n, loads, hInside⟩ := hThrough
  induction n using Nat.strongRecOn generalizing s p loads with
  | ind n ih =>
    cases hAbove : above p.1 with
    | false =>
      obtain ⟨r, hExit, hSame, hrPc⟩ := hRuns.exits s p hPc hPair hAbove
      obtain rfl : r = t := hExit.unique ⟨n, loads, hInside⟩ (hrPc ▸ hRuns.out) hOut
      refine ⟨p, .done (by rw [hAbove]; decide), ?_⟩
      rw [settle_same hWidths hMemory hPair]
      exact hSame
    | true =>
      obtain ⟨r, ⟨m, loads', hRound⟩, hSame, hrPc⟩ := hRuns.rounds s p hPc hPair hAbove
      have hrPair : HasPair machine loop r (round p) :=
        hSame.hasPair (settle_hasPair hWidths hRuns.apart)
      obtain ⟨rest, loads'', hTotal, -, hRest⟩ := hRound.split hInside hOut
      -- a round takes steps, as it moves the pair
      have hPos : 0 < m := by
        rcases Nat.eq_zero_or_pos m with rfl | hPos
        · exfalso
          cases hRound with
          | refl =>
            exact hRuns.moves p hAbove (hrPair.unique hPair)
        · exact hPos
      obtain ⟨q, hEnds, htSame⟩ := ih rest (by omega) hrPc hrPair loads'' hRest
      refine ⟨q, .again hAbove hEnds, htSame.trans ?_⟩
      rw [← settle_settle hMemory hRuns.apart (s := s)]
      exact hSame.settle q

end

end Rounds

-- ---
-- The loop
-- ---

/-- What a loop that is folded looks like. -/
structure IsCollatzLoop (code : List IRInstruction) (h : Nat) (loop : CollatzLoop)
    (guard even product : String) : Prop where
  headerAt : ∃ c, code[h]? = some c ∧ c.op = .label
  guardAt : ∃ c, FirstFrom code (h + 1) loop.guardIndex c ∧
    collatzGuard c = some (loop.symbol, guard)
  branchAt : ∃ c, FirstFrom code (loop.guardIndex + 1) loop.branchIndex c ∧
    branchesOn guard c = true ∧ c.text = loop.done
  parityAt : ∃ c, FirstFrom code (loop.branchIndex + 1) loop.parityIndex c ∧
    isParitySource loop.symbol c = true ∧ c.dest.name = some loop.parity
  compareAt : ∃ c, FirstFrom code (loop.parityIndex + 1) loop.compareIndex c ∧
    evenCompare loop.parity c = some even
  evenBranchAt : ∃ c, FirstFrom code (loop.compareIndex + 1) loop.evenBranchIndex c ∧
    branchesOn even c = true ∧ c.text = some loop.odd
  evenStepAt : FirstFrom code (loop.evenBranchIndex + 1) loop.evenStepIndex loop.evenStep ∧
    isEvenStep loop.symbol loop.evenStep = true
  evenJumpAt : ∃ c, FirstFrom code (loop.evenStepIndex + 1) loop.evenJumpIndex c ∧
    c.op = .jump ∧ c.text = some loop.join
  oddAt : labelIndex code loop.odd = some loop.oddIndex
  joinAt : labelIndex code loop.join = some loop.joinIndex
  oddBehind : loop.evenJumpIndex < loop.oddIndex
  joinBehind : loop.oddIndex < loop.joinIndex
  mulAt : ∃ c, FirstFrom code (loop.oddIndex + 1) loop.mulIndex c ∧
    oddMul loop.symbol c = some product
  addAt : ∃ c, FirstFrom code (loop.mulIndex + 1) loop.addIndex c ∧
    isOddAdd loop.symbol product c = true
  nextAt : ∃ c, FirstFrom code (loop.addIndex + 1) loop.joinIndex c
  countAt : FirstFrom code (loop.joinIndex + 1) loop.countIndex loop.countInc ∧
    countInc loop.countInc = some loop.count
  backAt : ∃ c, FirstFrom code (loop.countIndex + 1) loop.backIndex c ∧ jumpsTo loop.header c = true

theorem collatzLoopAt_spec {h : Nat} (hLoop : collatzLoopAt code h = some loop) :
    ∃ guard even product, IsCollatzLoop code h loop guard even product := by
  unfold collatzLoopAt at hLoop
  dsimp only [Option.bind_eq_bind] at hLoop
  simp only [↓Option.bind_eq_some_iff] at hLoop
  obtain ⟨label, hLabel, header, hHeader, guardIndex, hGuard, guardC, hGuardAt, ⟨symbol, guard⟩,
    hGuardIs, branchIndex, hBranch, branchC, hBranchAt, parityIndex, hParity, parityC, hParityAt,
    parity, hParityName, compareIndex, hCompare, compareC, hCompareAt, even, hCompareIs,
    evenBranchIndex, hEvenBranch, evenBranchC, hEvenBranchAt, odd, hOddText, evenStepIndex,
    hEvenStep, evenStep, hEvenStepAt, evenJumpIndex, hEvenJump, evenJumpC, hEvenJumpAt, join,
    hJoinText, oddIndex, hOdd, joinIndex, hJoin, mulIndex, hMul, mulC, hMulAt, product, hMulIs,
    addIndex, hAdd, nextIndex, hNext, countIndex, hCount, inc, hInc, count, hCountIs, backIndex,
    hBack, hEnd⟩ := hLoop
  split at hEnd
  · rename_i hOrder
    obtain ⟨hOddBehind, hJoinBehind, rfl⟩ := hOrder
    cases hEnd
    obtain ⟨_, hBranchFirst, hBranchIs⟩ := firstFrom_of_nextIs hBranch
    obtain ⟨_, hParityFirst, hParityIs⟩ := firstFrom_of_nextIs hParity
    obtain ⟨_, hEvenBranchFirst, hEvenBranchIs⟩ := firstFrom_of_nextIs hEvenBranch
    obtain ⟨_, hEvenStepFirst, hEvenStepIs⟩ := firstFrom_of_nextIs hEvenStep
    obtain ⟨_, hEvenJumpFirst, hEvenJumpIs⟩ := firstFrom_of_nextIs hEvenJump
    obtain rfl := Option.some.inj (hBranchFirst.at_.symm.trans hBranchAt)
    obtain rfl := Option.some.inj (hParityFirst.at_.symm.trans hParityAt)
    obtain rfl := Option.some.inj (hEvenBranchFirst.at_.symm.trans hEvenBranchAt)
    obtain rfl := Option.some.inj (hEvenStepFirst.at_.symm.trans hEvenStepAt)
    obtain rfl := Option.some.inj (hEvenJumpFirst.at_.symm.trans hEvenJumpAt)
    obtain ⟨⟨joinC, hJoinLabel, -⟩, -⟩ := labelIndex_iff.mp hJoin
    refine ⟨guard, even, product, {
      headerAt := ⟨label, hLabel, ?_⟩
      guardAt := ⟨guardC, firstFrom_of_find hGuard hGuardAt, hGuardIs⟩
      branchAt := ⟨_, hBranchFirst, hBranchIs, rfl⟩
      parityAt := ⟨_, hParityFirst, hParityIs, hParityName⟩
      compareAt := ⟨compareC, firstFrom_of_find hCompare hCompareAt, hCompareIs⟩
      evenBranchAt := ⟨_, hEvenBranchFirst, hEvenBranchIs, hOddText⟩
      evenStepAt := ⟨hEvenStepFirst, hEvenStepIs⟩
      evenJumpAt := ⟨_, hEvenJumpFirst, by simpa using hEvenJumpIs, hJoinText⟩
      oddAt := hOdd
      joinAt := hJoin
      oddBehind := hOddBehind
      joinBehind := hJoinBehind
      mulAt := ⟨mulC, firstFrom_of_find hMul hMulAt, hMulIs⟩
      addAt := firstFrom_of_nextIs hAdd
      nextAt := ⟨joinC, firstFrom_of_find hNext hJoinLabel⟩
      countAt := ⟨firstFrom_of_find hCount hInc, hCountIs⟩
      backAt := firstFrom_of_nextIs hBack }⟩
    unfold IRInstruction.labelName at hHeader
    split at hHeader
    · assumption
    · cases hHeader
  · cases hEnd

/-- The labels of the loop are its own: the header is found where it stands, and the loop is
left for a label outside of it. The count is not the word, the parity goes to a temp, and no
addition is one of strings. -/
structure OwnLoop (code : List IRInstruction) (h : Nat) (loop : CollatzLoop) (done : String)
    (donePlace : Nat) : Prop where
  header : labelIndex code loop.header = some h
  doneIs : loop.done = some done
  doneAt : labelIndex code done = some donePlace
  outside : ¬ (h ≤ donePlace ∧ donePlace ≤ loop.backIndex)
  apart : loop.symbol ≠ loop.count
  parity : ∃ c, code[loop.parityIndex]? = some c ∧ c.dest = .temp loop.parity
  plain : ∀ c ∈ code[loop.addIndex]?, c.astRef = false
  plainCount : loop.countInc.astRef = false

section Loop

theorem IsCollatzLoop.order (hIs : IsCollatzLoop code h loop guard even product) :
    h < loop.branchIndex ∧ loop.branchIndex < loop.evenBranchIndex ∧
      loop.evenBranchIndex < loop.evenStepIndex ∧ loop.evenStepIndex < loop.evenJumpIndex ∧
      loop.evenJumpIndex < loop.oddIndex ∧ loop.oddIndex < loop.mulIndex ∧
      loop.mulIndex < loop.addIndex ∧
      loop.addIndex < loop.joinIndex ∧ loop.joinIndex < loop.countIndex ∧
      loop.countIndex < loop.backIndex ∧ loop.backIndex < code.length := by
  obtain ⟨_, hGuard, -⟩ := hIs.guardAt
  obtain ⟨_, hBranch, -⟩ := hIs.branchAt
  obtain ⟨_, hParity, -⟩ := hIs.parityAt
  obtain ⟨_, hCompare, -⟩ := hIs.compareAt
  obtain ⟨_, hEvenBranch, -⟩ := hIs.evenBranchAt
  obtain ⟨_, hEvenJump, -⟩ := hIs.evenJumpAt
  obtain ⟨_, hMul, -⟩ := hIs.mulAt
  obtain ⟨_, hAdd, -⟩ := hIs.addAt
  obtain ⟨_, hNext⟩ := hIs.nextAt
  obtain ⟨_, hBack, -⟩ := hIs.backAt
  have hLt := (List.getElem_of_getElem? hBack.at_).1
  have hOdd := hIs.oddBehind
  have := hGuard.le; have := hBranch.le; have := hParity.le; have := hCompare.le
  have := hEvenBranch.le; have := hIs.evenStepAt.1.le; have := hEvenJump.le; have := hMul.le
  have := hAdd.le; have := hNext.le; have := hIs.countAt.1.le; have := hBack.le
  omega

theorem IsCollatzLoop.test (hIs : IsCollatzLoop code h loop guard even product)
    (hOwn : OwnLoop code h loop done donePlace) :
    CollatzTest code h (loop.backIndex + 1) loop done donePlace loop.oddIndex guard even where
  header := hIs.headerAt
  guardAt := hIs.guardAt
  branchAt := by
    obtain ⟨c, hFirst, hOn, hText⟩ := hIs.branchAt
    exact ⟨c, hFirst, hOn, hText.trans hOwn.doneIs⟩
  doneAt := hOwn.doneAt
  parityAt := by
    obtain ⟨c, hFirst, hSource, -⟩ := hIs.parityAt
    obtain ⟨d, hd, hDest⟩ := hOwn.parity
    obtain rfl := Option.some.inj (hFirst.at_.symm.trans hd)
    exact ⟨c, hFirst, hSource, hDest⟩
  compareAt := hIs.compareAt
  evenBranchAt := hIs.evenBranchAt
  oddAt := hIs.oddAt
  room := by
    have hOrder := hIs.order
    omega

theorem labelIndex_label (h : labelIndex code name = some k) :
    ∃ c, code[k]? = some c ∧ c.op = .label := by
  obtain ⟨⟨c, hc, hLabel⟩, -⟩ := labelIndex_iff.mp h
  rw [IRInstruction.isLabel, Bool.and_eq_true, beq_iff_eq] at hLabel
  exact ⟨c, hc, hLabel.1⟩

section

variable (hWords : CollatzWords machine above half)
  (hIs : IsCollatzLoop code h loop guard even product)
include hWords hIs

theorem IsCollatzLoop.through_arm (hOwn : OwnLoop code h loop done donePlace)
    {s : IRState (BitVec 64) M} (hx : machine.value s (.symbol loop.symbol) = some a)
    (hAbove : above a = true)
    (hPc : s.pc = if a &&& 1 = 0 then loop.evenBranchIndex + 1 else loop.oddIndex) :
    ∃ t, Through machine code h (loop.backIndex + 1) s t ∧ t.pc = loop.joinIndex ∧
      SameSymbols t (machine.write s (.symbol loop.symbol)
        (if a &&& 1 = 0 then half a else 3 * a + 1)) := by
  have hOrder := hIs.order
  by_cases hEven : a &&& 1 = 0
  · rw [if_pos hEven] at hPc
    obtain ⟨hStep, hIsStep⟩ := hIs.evenStepAt
    obtain ⟨jump, hJump, hJumpOp, hJumpText⟩ := hIs.evenJumpAt
    obtain ⟨t, hHalf, htPc, hSame⟩ := FirstFrom.through_half (hPc ▸ hStep) hWords
      (show h ≤ s.pc by omega) (show loop.evenStepIndex < loop.backIndex + 1 by omega) hIsStep hx
      hAbove
    have hTo : Through machine code h (loop.backIndex + 1) t { t with pc := loop.joinIndex } :=
      FirstFrom.through_jump (htPc ▸ hJump) (by omega) (by omega) hJumpOp hJumpText hIs.joinAt
    rw [if_pos hEven]
    exact ⟨_, hHalf.trans hTo, rfl, hSame.locals, hSame.memory, hSame.trace⟩
  · rw [if_neg hEven] at hPc
    obtain ⟨mul, hMul, hIsMul⟩ := hIs.mulAt
    obtain ⟨add, hAdd, hIsAdd⟩ := hIs.addAt
    obtain ⟨next, hNext⟩ := hIs.nextAt
    obtain ⟨t, hOdd, htPc, hSame⟩ := through_odd_step hWords (hPc ▸ labelIndex_label hIs.oddAt)
      (hPc ▸ hMul) hAdd (show h ≤ s.pc by omega)
      (show loop.addIndex < loop.backIndex + 1 by omega) hIsMul hIsAdd
      (hOwn.plain add hAdd.at_) hx
    have hTo : Through machine code h (loop.backIndex + 1) t { t with pc := loop.joinIndex } :=
      FirstFrom.through_nops (htPc ▸ hNext) (by omega) (by omega)
    rw [if_neg hEven]
    exact ⟨_, hOdd.trans hTo, rfl, hSame.locals, hSame.memory, hSame.trace⟩

theorem IsCollatzLoop.through_tail (hOwn : OwnLoop code h loop done donePlace)
    {s : IRState (BitVec 64) M} {b : BitVec 64} (hc : machine.value s (.symbol loop.count) = some b)
    (hPc : s.pc = loop.joinIndex) :
    ∃ t, Through machine code h (loop.backIndex + 1) s t ∧ t.pc = h ∧
      SameSymbols t (machine.write s (.symbol loop.count) (b + 1)) := by
  have hOrder := hIs.order
  obtain ⟨hCount, hIsCount⟩ := hIs.countAt
  obtain ⟨back, hBack, hIsBack⟩ := hIs.backAt
  have hPass : Through machine code h (loop.backIndex + 1) s { s with pc := s.pc + 1 } :=
    through_label (hPc ▸ labelIndex_label hIs.joinAt) (by omega) (by omega)
  obtain ⟨t, hInc, htPc, hSame⟩ := FirstFrom.through_adds (s := { s with pc := s.pc + 1 })
    (hPc ▸ hCount) hWords (show h ≤ s.pc + 1 by omega)
    (show loop.countIndex < loop.backIndex + 1 by omega) (countInc_spec hIsCount)
    hOwn.plainCount ((machine.value_pc s _ _).trans hc)
  obtain ⟨hJump, hText⟩ : back.op = .jump ∧ back.text = some loop.header := by
    simpa [jumpsTo] using hIsBack
  have hHome : Through machine code h (loop.backIndex + 1) t { t with pc := h } :=
    FirstFrom.through_jump (htPc ▸ hBack) (by omega) (by omega) hJump hText hOwn.header
  have hMoved : SameSymbols { s with pc := s.pc + 1 } s := ⟨rfl, rfl, rfl⟩
  have hFinal := hSame.trans (hMoved.write_symbol loop.count _)
  exact ⟨_, (hPass.trans hInc).trans hHome, rfl, hFinal.locals, hFinal.memory, hFinal.trace⟩

end

/-- **The loop** runs the rounds. -/
theorem IsCollatzLoop.runs (hWords : CollatzWords machine above half)
    (hIs : IsCollatzLoop code h loop guard even product)
    (hOwn : OwnLoop code h loop done donePlace) (hWidths : CollatzWidths machine loop bits)
    (hMemory : Overwrites machine) :
    CollatzRuns machine above code h (loop.backIndex + 1) donePlace loop
      (collatzRound half : BitVec 64 × BitVec bits → _) := by
  have hOut := hOwn.outside
  refine (hIs.test hOwn).runs hWords (by omega) hOwn.apart
    (collatzRound_ne hWidths.count.two half) fun s p hPair hAbove hPc => ?_
  obtain ⟨v, hArm, hvPc, hvSame⟩ := hIs.through_arm hWords hOwn hPair.1 hAbove hPc
  obtain ⟨n, hn, hLow⟩ := hPair.2
  obtain ⟨t, hTail, htPc, htSame⟩ :=
    hIs.through_tail hWords hOwn ((hvSame.value_apart hOwn.apart).trans hn) hvPc
  have hFinal := htSame.trans (hvSame.write_symbol loop.count _)
  rw [hMemory.write_swap _ hOwn.apart,
    hWidths.count.write_add hLow (k := 1) (l := 1) (hWidths.count.literal 1)] at hFinal
  exact ⟨t, hArm.trans hTail, hFinal, htPc⟩

end Loop

-- ---
-- The folded loop
-- ---

def CollatzLoop.place (loop : CollatzLoop) (q : Nat) : Nat :=
  if q < loop.evenJumpIndex then q else if q < loop.joinIndex then q + 1 else q + 3

theorem CollatzLoop.place_strictMono (loop : CollatzLoop) : StrictMono loop.place := by
  refine strictMono_nat_of_lt_succ fun q => ?_
  unfold CollatzLoop.place
  split_ifs <;> omega

section Folded

section

variable (hOrder : loop.evenJumpIndex < loop.joinIndex) (hCount : loop.joinIndex < loop.countIndex)
  (hIn : loop.joinIndex < code.length)
include hOrder hCount hIn

theorem foldCollatz_place (q : Nat) : (foldCollatz code loop)[loop.place q]? =
      if q = loop.countIndex then code[q]?.map makeNop else code[q]? := by
  unfold foldCollatz CollatzLoop.place
  rw [getElem?_modify]
  simp only [getElem?_insertIdx, length_insertIdx]
  grind

theorem foldCollatz_new : (foldCollatz code loop)[loop.evenJumpIndex]? = some loop.countInc ∧
      (foldCollatz code loop)[loop.joinIndex + 1]? = some loop.shift ∧
      (foldCollatz code loop)[loop.joinIndex + 2]? = some loop.countTwice := by
  unfold foldCollatz
  refine ⟨?_, ?_, ?_⟩ <;>
  · rw [getElem?_modify]
    grind

end

theorem CollatzLoop.place_cases (hOrder : loop.evenJumpIndex < loop.joinIndex) (k : Nat) :
    (∃ q, loop.place q = k) ∨ k = loop.evenJumpIndex ∨ k = loop.joinIndex + 1 ∨
      k = loop.joinIndex + 2 := by
  unfold CollatzLoop.place
  by_cases hFirst : k < loop.evenJumpIndex
  · exact Or.inl ⟨k, if_pos hFirst⟩
  by_cases hJump : k = loop.evenJumpIndex
  · exact Or.inr (Or.inl hJump)
  by_cases hSecond : k ≤ loop.joinIndex
  · refine Or.inl ⟨k - 1, ?_⟩
    rw [if_neg (by omega), if_pos (by omega)]
    omega
  by_cases hShift : k = loop.joinIndex + 1 ∨ k = loop.joinIndex + 2
  · exact Or.inr (Or.inr hShift)
  · refine Or.inl ⟨k - 3, ?_⟩
    rw [if_neg (by omega), if_neg (by omega)]
    omega

end Folded

section Folded

section

variable (hIs : IsCollatzLoop code h loop guard even product)
include hIs

theorem IsCollatzLoop.folded_place (q : Nat) : (foldCollatz code loop)[loop.place q]? =
      if q = loop.countIndex then code[q]?.map makeNop else code[q]? := by
  have hOrder := hIs.order
  exact foldCollatz_place (by omega) (by omega) (by omega) q

theorem IsCollatzLoop.folded_new :
    (foldCollatz code loop)[loop.evenJumpIndex]? = some loop.countInc ∧
      (foldCollatz code loop)[loop.joinIndex + 1]? = some loop.shift ∧
      (foldCollatz code loop)[loop.joinIndex + 2]? = some loop.countTwice := by
  have hOrder := hIs.order
  exact foldCollatz_new (by omega) (by omega) (by omega)

theorem FirstFrom.folded {d : Nat} (hFirst : FirstFrom code start k c) (hNot : k ≠ loop.countIndex)
    (hPlace : ∀ q, start ≤ q → q ≤ k → loop.place q = q + d) :
    FirstFrom (foldCollatz code loop) (start + d) (k + d) c where
  le := Nat.add_le_add_right hFirst.le d
  at_ := by
    rw [← hPlace k hFirst.le (Nat.le_refl k), hIs.folded_place, if_neg hNot]
    exact hFirst.at_
  nops q hq hLt := by
    obtain ⟨e, he, hNop⟩ := hFirst.nops (q - d) (by omega) (by omega)
    have hAt := hIs.folded_place (q - d)
    rw [hPlace (q - d) (by omega) (by omega), Nat.sub_add_cancel (by omega), he] at hAt
    split at hAt
    · exact ⟨makeNop e, hAt, rfl⟩
    · exact ⟨e, hAt, hNop⟩

end

theorem shift_spec (hStep : isEvenStep loop.symbol loop.evenStep = true) :
    loop.shift.isInteger ">>" = true ∧ loop.shift.lhs = .symbol loop.symbol ∧
      loop.shift.rhs = .int 1 ∧ loop.shift.dest = .symbol loop.symbol := by
  obtain ⟨⟨hDest, hLhs⟩, hOp⟩ : (loop.evenStep.dest = .symbol loop.symbol ∧
      loop.evenStep.lhs = .symbol loop.symbol) ∧ _ := by
    simpa [isEvenStep, IRInstruction.isInteger] using hStep
  have hInteger : loop.evenStep.op = .binary ∧ loop.evenStep.isFloat = false := by
    rcases hOp with ⟨⟨h, -⟩, -⟩ | ⟨⟨h, -⟩, -⟩ <;> exact h
  refine ⟨?_, hLhs, rfl, hDest⟩
  simp [CollatzLoop.shift, IRInstruction.isInteger, hInteger]

theorem isInteger_op_ne_label (hOp : c.isInteger op = true) : (c.op == .label) = false := by
  have hBinary : (c.op = .binary ∧ c.isFloat = false) ∧ c.text = some op := by
    simpa [IRInstruction.isInteger] using hOp
  rw [hBinary.1.1]
  rfl

theorem isInteger_not_label (hOp : c.isInteger op = true) (name : String) :
    c.isLabel name = false := by
  rw [IRInstruction.isLabel, isInteger_op_ne_label hOp, Bool.false_and]

section

variable (hIs : IsCollatzLoop code h loop guard even product)
include hIs

theorem IsCollatzLoop.new_not_label (name : String) :
    loop.countInc.isLabel name = false ∧ loop.shift.isLabel name = false ∧
      loop.countTwice.isLabel name = false := by
  refine ⟨isInteger_not_label (countInc_spec hIs.countAt.2).1 name, ?_,
    isInteger_not_label (countTwice_adds hIs.countAt.2).1 name⟩
  exact isInteger_not_label (shift_spec hIs.evenStepAt.2).1 name

theorem IsCollatzLoop.folded_label (hLabel : labelIndex code name = some k) :
    labelIndex (foldCollatz code loop) name = some (loop.place k) := by
  obtain ⟨⟨c, hc, hIsLabel⟩, hBefore⟩ := labelIndex_iff.mp hLabel
  obtain ⟨hCount, hShift, hTwice⟩ := hIs.new_not_label name
  obtain ⟨hJumpAt, hShiftAt, hTwiceAt⟩ := hIs.folded_new
  have hNot : k ≠ loop.countIndex := by
    rintro rfl
    obtain rfl := Option.some.inj (hc.symm.trans hIs.countAt.1.at_)
    rw [hCount] at hIsLabel
    cases hIsLabel
  refine labelIndex_iff.mpr ⟨⟨c, by rw [hIs.folded_place, if_neg hNot]; exact hc, hIsLabel⟩, ?_⟩
  intro p d hp hd
  have hOrder := hIs.order
  rcases loop.place_cases (by omega) p with ⟨q, rfl⟩ | rfl | rfl | rfl
  · rw [hIs.folded_place] at hd
    have hLt : q < k := loop.place_strictMono.lt_iff_lt.mp hp
    split at hd
    · obtain ⟨e, -, rfl⟩ := Option.map_eq_some_iff.mp hd
      rfl
    · exact hBefore q d hLt hd
  · obtain rfl := Option.some.inj (hJumpAt.symm.trans hd)
    exact hCount
  · obtain rfl := Option.some.inj (hShiftAt.symm.trans hd)
    exact hShift
  · obtain rfl := Option.some.inj (hTwiceAt.symm.trans hd)
    exact hTwice

theorem IsCollatzLoop.folded_test (hOwn : OwnLoop code h loop done donePlace) :
    CollatzTest (foldCollatz code loop) h (loop.backIndex + 4) loop done (loop.place donePlace)
      (loop.oddIndex + 1) guard even := by
  have hOrder := hIs.order
  have hTest := hIs.test hOwn
  -- in front of the jump nothing is moved
  have hFront : ∀ {start k : Nat} {c : IRInstruction}, FirstFrom code start k c →
      k < loop.evenJumpIndex → FirstFrom (foldCollatz code loop) start k c := by
    intro start k c hFirst hk
    exact hFirst.folded hIs (d := 0) (by omega) fun q _ hq => if_pos (by omega)
  have hTestOrder := hTest.order
  refine ⟨?_, ?_, ?_, hIs.folded_label hOwn.doneAt, ?_, ?_, ?_, ?_, by omega⟩
  · obtain ⟨c, hc, hOp⟩ := hTest.header
    have hAt := hIs.folded_place h
    rw [if_neg (by omega), show loop.place h = h from if_pos (by omega), hc] at hAt
    exact ⟨c, hAt, hOp⟩
  · obtain ⟨c, hFirst, hGuard⟩ := hTest.guardAt
    exact ⟨c, hFront hFirst (by omega), hGuard⟩
  · obtain ⟨c, hFirst, hBranch⟩ := hTest.branchAt
    exact ⟨c, hFront hFirst (by omega), hBranch⟩
  · obtain ⟨c, hFirst, hParity⟩ := hTest.parityAt
    exact ⟨c, hFront hFirst (by omega), hParity⟩
  · obtain ⟨c, hFirst, hCompare⟩ := hTest.compareAt
    exact ⟨c, hFront hFirst (by omega), hCompare⟩
  · obtain ⟨c, hFirst, hBranch⟩ := hTest.evenBranchAt
    exact ⟨c, hFront hFirst (by omega), hBranch⟩
  · have hLabel := hIs.folded_label hIs.oddAt
    rwa [show loop.place loop.oddIndex = loop.oddIndex + 1 by
      rw [CollatzLoop.place, if_neg (by omega), if_pos (by omega)]] at hLabel

end

end Folded

section FoldedRounds

variable (hWords : CollatzWords machine above half)
  (hIs : IsCollatzLoop code h loop guard even product) (hOwn : OwnLoop code h loop done donePlace)
include hIs hOwn

section

variable (hWidths : CollatzWidths machine loop bits)
include hWords hWidths

theorem IsCollatzLoop.folded_even (hPair : HasPair machine loop s p) (hAbove : above p.1 = true)
    (hPc : s.pc = loop.evenBranchIndex + 1) :
    ∃ t, Through machine (foldCollatz code loop) h (loop.backIndex + 4) s t ∧
      t.pc = loop.joinIndex + 3 ∧
      SameSymbols t (machine.write (machine.write s (.symbol loop.symbol) (half p.1))
        (.symbol loop.count) ((p.2 + 1).setWidth 64)) := by
  have hOrder := hIs.order
  obtain ⟨hStep, hIsStep⟩ := hIs.evenStepAt
  obtain ⟨jump, hJump, hJumpOp, hJumpText⟩ := hIs.evenJumpAt
  have hStep' : FirstFrom (foldCollatz code loop) (loop.evenBranchIndex + 1) loop.evenStepIndex
      loop.evenStep :=
    hStep.folded hIs (d := 0) (by omega) fun q _ hq => if_pos (by omega)
  -- the count stands where the jump stood
  have hCount : FirstFrom (foldCollatz code loop) (loop.evenStepIndex + 1) loop.evenJumpIndex
      loop.countInc := by
    refine ⟨hJump.le, hIs.folded_new.1, fun q hq hLt => ?_⟩
    obtain ⟨d, hd, hNop⟩ := hJump.nops q hq hLt
    have hAt := hIs.folded_place q
    rw [if_neg (by omega), show loop.place q = q from if_pos hLt, hd] at hAt
    exact ⟨d, hAt, hNop⟩
  have hJump' : FirstFrom (foldCollatz code loop) (loop.evenJumpIndex + 1)
      (loop.evenJumpIndex + 1) jump := by
    refine ⟨Nat.le_refl _, ?_, fun q hq hLt => by omega⟩
    have hAt := hIs.folded_place loop.evenJumpIndex
    rw [if_neg (by omega), CollatzLoop.place, if_neg (Nat.lt_irrefl _), if_pos (by omega)] at hAt
    exact hAt.trans hJump.at_
  obtain ⟨t, hHalf, htPc, htSame⟩ := FirstFrom.through_half (hPc ▸ hStep') hWords
    (show h ≤ s.pc by omega) (show loop.evenStepIndex < loop.backIndex + 4 by omega) hIsStep
    hPair.1 hAbove
  obtain ⟨n, hn, hLow⟩ := hPair.2
  have htCount := (htSame.value_apart hOwn.apart).trans hn
  obtain ⟨u, hInc, huPc, huSame⟩ := FirstFrom.through_adds (htPc ▸ hCount) hWords
    (show h ≤ t.pc by omega) (show loop.evenJumpIndex < loop.backIndex + 4 by omega)
    (countInc_spec hIs.countAt.2) hOwn.plainCount htCount
  have hTo : Through machine (foldCollatz code loop) h (loop.backIndex + 4) u
      { u with pc := loop.place loop.joinIndex } :=
    FirstFrom.through_jump (huPc ▸ hJump') (by omega) (by omega) hJumpOp hJumpText
      (hIs.folded_label hIs.joinAt)
  have huCount : SameSymbols u (machine.write t (.symbol loop.count) (n + 1)) := huSame
  have hFinal := huCount.trans (htSame.write_symbol loop.count _)
  rw [hWidths.count.write_add hLow (k := 1) (l := 1) (hWidths.count.literal 1)] at hFinal
  refine ⟨_, (hHalf.trans hInc).trans hTo, ?_, hFinal.locals, hFinal.memory, hFinal.trace⟩
  show loop.place loop.joinIndex = _
  rw [CollatzLoop.place, if_neg (by omega), if_neg (Nat.lt_irrefl _)]

variable (hMemory : Overwrites machine)
include hMemory

theorem IsCollatzLoop.folded_odd (hPair : HasPair machine loop s p)
    (hPc : s.pc = loop.oddIndex + 1) :
    ∃ t, Through machine (foldCollatz code loop) h (loop.backIndex + 4) s t ∧
      t.pc = loop.joinIndex + 3 ∧
      SameSymbols t (machine.write (machine.write s (.symbol loop.symbol) (half (3 * p.1 + 1)))
        (.symbol loop.count) ((p.2 + 2).setWidth 64)) := by
  have hOrder := hIs.order
  obtain ⟨mul, hMul, hIsMul⟩ := hIs.mulAt
  obtain ⟨add, hAdd, hIsAdd⟩ := hIs.addAt
  obtain ⟨next, hNext⟩ := hIs.nextAt
  have hOne : ∀ {q : Nat}, loop.oddIndex ≤ q → q < loop.joinIndex → loop.place q = q + 1 := by
    intro q hq hLt
    rw [CollatzLoop.place, if_neg (by omega), if_pos hLt]
  have hMul' := hMul.folded hIs (by omega) fun q hq hLe => hOne (by omega) (by omega)
  have hAdd' := hAdd.folded hIs (by omega) fun q hq hLe => hOne (by omega) (by omega)
  -- the halving stands behind the nops in front of the label
  have hShift : FirstFrom (foldCollatz code loop) (loop.addIndex + 2) (loop.joinIndex + 1)
      loop.shift := by
    refine ⟨by omega, hIs.folded_new.2.1, fun q hq hLt => ?_⟩
    obtain ⟨d, hd, hNop⟩ := hNext.nops (q - 1) (by omega) (by omega)
    have hAt := hIs.folded_place (q - 1)
    rw [if_neg (by omega), hOne (by omega) (by omega), Nat.sub_add_cancel (by omega), hd] at hAt
    exact ⟨d, hAt, hNop⟩
  have hLabel := labelIndex_label (hIs.folded_label hIs.oddAt)
  rw [hOne (Nat.le_refl _) (by omega)] at hLabel
  obtain ⟨t, hStep, htPc, htSame⟩ := through_odd_step hWords (hPc ▸ hLabel) (hPc ▸ hMul') hAdd'
    (show h ≤ s.pc by omega) (show loop.addIndex + 1 < loop.backIndex + 4 by omega) hIsMul hIsAdd
    (hOwn.plain add hAdd.at_) hPair.1
  obtain ⟨hOp, hLhs, hRhs, hDest⟩ := shift_spec hIs.evenStepAt.2
  have htWord : machine.value t loop.shift.lhs = some (3 * p.1 + 1) := by
    rw [hLhs, htSame.value, machine.value_write_self (Or.inr ⟨_, rfl⟩), hWidths.word]
  obtain ⟨u, hHalf, huPc, huSame⟩ := FirstFrom.through_symbol (htPc ▸ hShift)
    (show h ≤ t.pc by omega) (show loop.joinIndex + 1 < loop.backIndex + 4 by omega) hOp
    (Or.inl (by decide)) htWord (hRhs ▸ hWords.value_int t 1) (hWords.shift _) hDest
  have hWritten := huSame.trans (htSame.write_symbol loop.symbol (half (3 * p.1 + 1)))
  rw [hMemory.write_twice] at hWritten
  obtain ⟨n, hn, hLow⟩ := hPair.2
  have huCount := (hWritten.value_apart hOwn.apart).trans hn
  have hTwice : FirstFrom (foldCollatz code loop) u.pc (loop.joinIndex + 2) loop.countTwice := by
    rw [huPc]
    exact ⟨Nat.le_refl _, hIs.folded_new.2.2, fun q hq hLt => by omega⟩
  obtain ⟨v, hInc, hvPc, hvSame⟩ := FirstFrom.through_adds hTwice hWords
    (show h ≤ u.pc by omega) (show loop.joinIndex + 2 < loop.backIndex + 4 by omega)
    (countTwice_adds hIs.countAt.2) (countTwice_plain hOwn.plainCount) huCount
  have hvCount : SameSymbols v (machine.write u (.symbol loop.count) (n + 2)) := hvSame
  have hFinal := hvCount.trans (hWritten.write_symbol loop.count _)
  rw [hWidths.count.write_add hLow (k := 2) (l := 2) (hWidths.count.literal 2)] at hFinal
  exact ⟨v, (hStep.trans hHalf).trans hInc, hvPc, hFinal⟩

end

theorem IsCollatzLoop.folded_tail (hPc : s.pc = loop.joinIndex + 3) :
    Through machine (foldCollatz code loop) h (loop.backIndex + 4) s { s with pc := h } := by
  have hOrder := hIs.order
  obtain ⟨back, hBack, hIsBack⟩ := hIs.backAt
  have hThree : ∀ {q : Nat}, loop.joinIndex ≤ q → loop.place q = q + 3 := by
    intro q hq
    rw [CollatzLoop.place, if_neg (by omega), if_neg (by omega)]
  have hBack' : FirstFrom (foldCollatz code loop) (loop.joinIndex + 3 + 1) (loop.backIndex + 3)
      back := by
    refine ⟨by omega, ?_, fun q hq hLt => ?_⟩
    · have hAt := hIs.folded_place loop.backIndex
      rw [if_neg (by omega), hThree (by omega)] at hAt
      exact hAt.trans hBack.at_
    · have hAt := hIs.folded_place (q - 3)
      rw [hThree (by omega), Nat.sub_add_cancel (by omega)] at hAt
      rcases Nat.lt_trichotomy (q - 3) loop.countIndex with hFront | hCount | hBehind
      · obtain ⟨d, hd, hNop⟩ := hIs.countAt.1.nops (q - 3) (by omega) hFront
        rw [if_neg (by omega), hd] at hAt
        exact ⟨d, hAt, hNop⟩
      · rw [if_pos hCount, hCount, hIs.countAt.1.at_] at hAt
        exact ⟨_, hAt, rfl⟩
      · obtain ⟨d, hd, hNop⟩ := hBack.nops (q - 3) (by omega) (by omega)
        rw [if_neg (by omega), hd] at hAt
        exact ⟨d, hAt, hNop⟩
  have hLabel := labelIndex_label (hIs.folded_label hIs.joinAt)
  rw [hThree (Nat.le_refl _)] at hLabel
  have hHeader := hIs.folded_label hOwn.header
  rw [show loop.place h = h from if_pos (by omega)] at hHeader
  exact through_back (hPc ▸ hLabel) (hPc ▸ hBack') hIsBack (by omega) (by omega) hHeader

variable (hWidths : CollatzWidths machine loop bits) (hMemory : Overwrites machine)
include hWords hWidths hMemory

/-- **The folded loop** does two rounds at once where the word is odd. -/
theorem IsCollatzLoop.folded_runs :
    CollatzRuns machine above (foldCollatz code loop) h (loop.backIndex + 4)
      (loop.place donePlace) loop
      (Lib.skipping IsOdd (collatzRound half : BitVec 64 × BitVec bits → _)) := by
  have hOut : ¬ (h ≤ loop.place donePlace ∧ loop.place donePlace < loop.backIndex + 4) := by
    have hOrder := hIs.order
    have hOut := hOwn.outside
    unfold CollatzLoop.place
    split_ifs <;> omega
  have hMoves : ∀ p : BitVec 64 × BitVec bits, Lib.skipping IsOdd (collatzRound half) p ≠ p := by
    intro p
    unfold Lib.skipping
    split
    · rename_i hOdd
      rw [collatzRound_twice hOdd]
      exact fun hSame => (count_ne hWidths.count.two p.2).2 (congrArg Prod.snd hSame)
    · exact collatzRound_ne hWidths.count.two half p
  refine (hIs.folded_test hOwn).runs hWords hOut hOwn.apart hMoves fun s p hPair hAbove hPc => ?_
  have hArm : ∃ v, Through machine (foldCollatz code loop) h (loop.backIndex + 4) s v ∧
      v.pc = loop.joinIndex + 3 ∧
      SameSymbols v (settle machine loop s (Lib.skipping IsOdd (collatzRound half) p)) := by
    by_cases hOdd : IsOdd p
    · rw [if_neg hOdd] at hPc
      rw [Lib.skipping, if_pos hOdd, collatzRound_twice hOdd, settle,
        ← hMemory.write_swap _ hOwn.apart]
      exact hIs.folded_odd hWords hOwn hWidths hMemory hPair hPc
    · have hEven : p.1 &&& 1 = 0 := not_not.mp hOdd
      rw [if_pos hEven] at hPc
      rw [Lib.skipping, if_neg hOdd, collatzRound, if_pos hEven, settle,
        ← hMemory.write_swap _ hOwn.apart]
      exact hIs.folded_even hWords hOwn hWidths hPair hAbove hPc
  obtain ⟨v, hArm, hvPc, hvSame⟩ := hArm
  exact ⟨_, hArm.trans (hIs.folded_tail hOwn hvPc), ⟨hvSame.locals, hvSame.memory, hvSame.trace⟩,
    rfl⟩

end FoldedRounds

-- ---
-- When the fold is exact
-- ---

def collatzStep (half : BitVec 64 → BitVec 64) (x : BitVec 64) : BitVec 64 :=
  if x &&& 1 = 0 then half x else 3 * x + 1

/-- No odd word that the loop comes to is led out of the loop by `3 * x + 1`. -/
def NeverLeaps (above : BitVec 64 → Bool) (half : BitVec 64 → BitVec 64) (x : BitVec 64) : Prop :=
  ∀ k, (∀ j ≤ k, above ((collatzStep half)^[j] x) = true) →
    (collatzStep half)^[k] x &&& 1 ≠ 0 → above (3 * (collatzStep half)^[k] x + 1) = true

theorem collatzRound_iterate (half : BitVec 64 → BitVec 64) (k : Nat)
    (p : BitVec 64 × BitVec bits) :
    ((collatzRound half)^[k] p).1 = (collatzStep half)^[k] p.1 := by
  induction k generalizing p with
  | zero => rfl
  | succ k ih =>
    rw [Function.iterate_succ_apply, Function.iterate_succ_apply, ih]
    rfl

theorem holdsBetween_iff :
    Lib.HoldsBetween (fun p => above p.1 = true) IsOdd (collatzRound half) p ↔
      NeverLeaps above half p.1 := by
  refine forall_congr' fun k => ?_
  simp only [collatzRound_iterate, IsOdd]
  refine imp_congr_right fun _ => imp_congr_right fun hOdd => ?_
  rw [Function.iterate_succ_apply', collatzStep, if_neg hOdd]

section Exact

/-- The loop and the folded loop come to the label behind them with the same symbols, the same
memory and the same trace, or both do not come to it. -/
def CollatzAgrees (machine : Machine (BitVec 64) M) (code : List IRInstruction) (h : Nat)
    (loop : CollatzLoop) (donePlace : Nat) (s : IRState (BitVec 64) M) : Prop :=
  (∀ t, Through machine code h (loop.backIndex + 1) s t → t.pc = donePlace →
    ∃ t', Through machine (foldCollatz code loop) h (loop.backIndex + 4) s t' ∧
      t'.pc = loop.place donePlace ∧ SameSymbols t' t) ∧
  ∀ t', Through machine (foldCollatz code loop) h (loop.backIndex + 4) s t' →
    t'.pc = loop.place donePlace →
    ∃ t, Through machine code h (loop.backIndex + 1) s t ∧ t.pc = donePlace ∧ SameSymbols t' t

theorem settle_inj (hWidths : CollatzWidths machine loop bits) (hApart : loop.symbol ≠ loop.count)
    (hSame : SameSymbols (settle machine loop s p) (settle machine loop s q)) : p = q :=
  (settle_hasPair hWidths hApart).unique (hSame.hasPair (settle_hasPair hWidths hApart))

variable (hWords : CollatzWords machine above half)
  (hWidths : CollatzWidths machine loop bits) (hMemory : Overwrites machine)
include hWords hWidths hMemory

theorem collatzAgrees_iff (hLoop : collatzLoopAt code h = some loop)
    (hOwn : OwnLoop code h loop done donePlace)
    (hPc : s.pc = h) (hPair : HasPair machine loop s p) :
    CollatzAgrees machine code h loop donePlace s ↔
      Lib.SameEnds (fun p => above p.1 = true) IsOdd (collatzRound half) p := by
  obtain ⟨guard, even, product, hIs⟩ := collatzLoopAt_spec hLoop
  have hOld := hIs.runs hWords hOwn hWidths hMemory
  have hNew := hIs.folded_runs hWords hOwn hWidths hMemory
  constructor
  · rintro ⟨hForth, hBack⟩ q
    constructor
    · intro hEnds
      obtain ⟨t, hThrough, hSame, htPc⟩ := hOld.ends hWidths hMemory hEnds hPc hPair
      obtain ⟨t', hThrough', htPc', hAgree⟩ := hForth t hThrough htPc
      obtain ⟨q', hEnds', hSame'⟩ := hNew.only_ends hWidths hMemory hThrough' htPc' hPc hPair
      obtain rfl : q' = q := settle_inj hWidths hOwn.apart (hSame'.symm.trans (hAgree.trans hSame))
      exact hEnds'
    · intro hEnds
      obtain ⟨t', hThrough, hSame, htPc⟩ := hNew.ends hWidths hMemory hEnds hPc hPair
      obtain ⟨t, hThrough', htPc', hAgree⟩ := hBack t' hThrough htPc
      obtain ⟨q', hEnds', hSame'⟩ := hOld.only_ends hWidths hMemory hThrough' htPc' hPc hPair
      obtain rfl : q' = q :=
        settle_inj hWidths hOwn.apart (hSame'.symm.trans (hAgree.symm.trans hSame))
      exact hEnds'
  · intro hSameEnds
    constructor
    · intro t hThrough htPc
      obtain ⟨q, hEnds, hSame⟩ := hOld.only_ends hWidths hMemory hThrough htPc hPc hPair
      obtain ⟨t', hThrough', hSame', htPc'⟩ :=
        hNew.ends hWidths hMemory ((hSameEnds q).mp hEnds) hPc hPair
      exact ⟨t', hThrough', htPc', hSame'.trans hSame.symm⟩
    · intro t' hThrough htPc
      obtain ⟨q, hEnds, hSame⟩ := hNew.only_ends hWidths hMemory hThrough htPc hPc hPair
      obtain ⟨t, hThrough', hSame', htPc'⟩ :=
        hOld.ends hWidths hMemory ((hSameEnds q).mpr hEnds) hPc hPair
      exact ⟨t, hThrough', htPc', hSame.trans hSame'.symm⟩

/-- **Exact without leaps.** A loop over a 64-bit word that is folded and has its labels to itself
comes to the same as the folded loop, whatever the width of its counter, if and only if no odd
word that it comes to leaps out of it. -/
theorem collatzFold_exact_iff (hLoop : collatzLoopAt code h = some loop)
    (hOwn : OwnLoop code h loop done donePlace) (hPc : s.pc = h) {x n : BitVec 64}
    (hx : machine.value s (.symbol loop.symbol) = some x)
    (hn : machine.value s (.symbol loop.count) = some n) :
    CollatzAgrees machine code h loop donePlace s ↔ NeverLeaps above half x := by
  have hPair : HasPair machine loop s (x, n.setWidth bits) := ⟨hx, n, hn, rfl⟩
  rw [collatzAgrees_iff hWords hWidths hMemory hLoop hOwn hPc hPair,
    collatz_skipping_iff hWords hWidths.count.two, holdsBetween_iff]

end Exact

-- ---
-- The pass comes to its end
-- ---

section Pass

theorem foldCollatz_size (hLoop : collatzLoopAt code h = some loop) :
    (foldCollatz code loop).length = code.length + 3 ∧
      (foldCollatz code loop).countP (·.op == .label) = code.countP (·.op == .label) := by
  obtain ⟨guard, even, product, hIs⟩ := collatzLoopAt_spec hLoop
  have hOrder := hIs.order
  have hInsert : ∀ {l : List IRInstruction} {k : Nat} {c : IRInstruction}, k ≤ l.length →
      (c.op == .label) = false → (l.insertIdx k c).length = l.length + 1 ∧
        (l.insertIdx k c).countP (·.op == .label) = l.countP (·.op == .label) := by
    intro l k c hk hc
    refine ⟨List.length_insertIdx_of_le_length hk c, ?_⟩
    rw [(List.perm_insertIdx c l hk).countP_eq, List.countP_cons_of_neg (by rw [hc]; decide)]
  have hCount := isInteger_op_ne_label (countInc_spec hIs.countAt.2).1
  obtain ⟨hLength, hLabels⟩ := hInsert (l := code) (k := loop.joinIndex) (by omega)
    (isInteger_op_ne_label (shift_spec hIs.evenStepAt.2).1)
  obtain ⟨hLength', hLabels'⟩ := hInsert
    (l := code.insertIdx loop.joinIndex loop.shift) (k := loop.joinIndex + 1) (by omega)
    (isInteger_op_ne_label (countTwice_adds hIs.countAt.2).1)
  obtain ⟨hLength'', hLabels''⟩ := hInsert
    (l := (code.insertIdx loop.joinIndex loop.shift).insertIdx (loop.joinIndex + 1)
      loop.countTwice) (k := loop.evenJumpIndex) (by omega) hCount
  unfold foldCollatz
  rw [List.length_modify, hLength'', hLength', hLength, ← hLabels, ← hLabels', ← hLabels'']
  refine ⟨rfl, ?_⟩
  -- the count that becomes a nop was no label
  have hAt : (((code.insertIdx loop.joinIndex loop.shift).insertIdx (loop.joinIndex + 1)
      loop.countTwice).insertIdx loop.evenJumpIndex loop.countInc)[loop.countIndex + 3]? =
      some loop.countInc := by
    have hOld := hIs.countAt.1.at_
    simp only [List.getElem?_insertIdx, List.length_insertIdx]
    grind
  obtain ⟨hIn, hGet⟩ := List.getElem_of_getElem? hAt
  rw [List.modify_eq_set_getElem?, hAt]
  show (List.set _ _ (makeNop loop.countInc)).countP _ = _
  rw [List.countP_set hIn, hGet, hCount]
  simp [makeNop]

theorem collatzPassRounds_fold (hLoop : collatzLoopAt code h = some loop) :
    collatzPassRounds (foldCollatz code loop) (h + 1) < collatzPassRounds code h := by
  obtain ⟨hLength, hLabels⟩ := foldCollatz_size hLoop
  obtain ⟨guard, even, product, hIs⟩ := collatzLoopAt_spec hLoop
  have hOrder := hIs.order
  obtain ⟨header, hHeader, hOp⟩ := hIs.headerAt
  have hTake : (foldCollatz code loop).take (h + 1) = code.take (h + 1) := by
    refine List.ext_getElem? fun q => ?_
    rcases Nat.lt_or_ge q (h + 1) with hLt | hGe
    · have hAt := hIs.folded_place q
      rw [if_neg (by omega), show loop.place q = q from if_pos (by omega)] at hAt
      rw [List.getElem?_take_of_lt hLt, List.getElem?_take_of_lt hLt, hAt]
    · rw [List.getElem?_eq_none (by rw [List.length_take]; omega),
        List.getElem?_eq_none (by rw [List.length_take]; omega)]
  have hSplit : ∀ (l : List IRInstruction) k, l.countP (·.op == .label) =
      (l.take k).countP (·.op == .label) + (l.drop k).countP (·.op == .label) := by
    intro l k
    rw [← List.countP_append, List.take_append_drop]
  have hNew := hSplit (foldCollatz code loop) (h + 1)
  rw [hTake, hLabels, hSplit code (h + 1)] at hNew
  have hHead : (code.drop h).countP (·.op == .label) =
      (code.drop (h + 1)).countP (·.op == .label) + 1 := by
    obtain ⟨hIn, hGet⟩ := List.getElem_of_getElem? hHeader
    rw [List.drop_eq_getElem_cons hIn, hGet, List.countP_cons_of_pos (by rw [hOp]; rfl)]
  unfold collatzPassRounds
  omega

theorem collatzPassRound_less (s next : List IRInstruction × Nat)
    (h : collatzPassRound s = .inl next) :
    collatzPassRounds next.1 next.2 < collatzPassRounds s.1 s.2 := by
  obtain ⟨instructions, i⟩ := s
  dsimp only [collatzPassRound] at h
  split at h
  · split at h
    · rename_i loop hLoop
      cases h
      exact collatzPassRounds_fold hLoop
    · cases h
      have hCount := (drop_sublist 1 (instructions.drop i)).countP_le (p := fun c => c.op == .label)
      rw [drop_drop] at hCount
      dsimp only [collatzPassRounds]
      omega
  · cases h

/-- **The pass returns** on every function: its loop ends with a result, and the rounds that are
counted for it are enough. -/
theorem irCollatzOddStepFoldPass_returns (function : IRFunction) (extra : Nat) :
    collatzFoldLoop (collatzPassRounds function.instructions 0 + 1 + extra) function.instructions 0 =
      some (irCollatzOddStepFoldPass function).instructions := by
  obtain ⟨result, hResult⟩ := runLoop_returns (fun s => collatzPassRounds s.1 s.2)
    collatzPassRound_less (function.instructions, 0)
  have hPass : (irCollatzOddStepFoldPass function).instructions = result := by
    show (collatzFoldLoop (_ + 1) _ 0).getD _ = _
    exact congrArg (Option.getD · function.instructions) (hResult 0)
  rw [hPass]
  exact hResult extra

end Pass

/-- `while (x > 1) { if (x % 2 == 0) x = x / 2; else x = 3 * x + 1; count = count + 1; }`,
behind some code, and the count is returned. -/
def collatzFunction (front : List IRInstruction) : IRFunction :=
  { name := "f", parameterNames := ["x", "count"]
    instructions := front ++ [{ op := .label, text := some "head" },
       { op := .binary, text := some ">", dest := .temp "g", lhs := .symbol "x", rhs := .int 1 },
       { op := .branchZero, lhs := .temp "g", text := some "done" },
       { op := .binary, text := some "%", dest := .temp "p", lhs := .symbol "x", rhs := .int 2 },
       { op := .binary, text := some "==", dest := .temp "e", lhs := .temp "p", rhs := .int 0 },
       { op := .branchZero, lhs := .temp "e", text := some "odd" },
       { op := .binary, text := some "/", dest := .symbol "x", lhs := .symbol "x", rhs := .int 2 },
       { op := .jump, text := some "join" },
       { op := .label, text := some "odd" },
       { op := .binary, text := some "*", dest := .temp "m", lhs := .int 3, rhs := .symbol "x" },
       { op := .binary, text := some "+", dest := .symbol "x", lhs := .temp "m", rhs := .int 1 },
       { op := .label, text := some "join" },
       { op := .binary, text := some "+", dest := .symbol "count", lhs := .symbol "count"
         rhs := .int 1 },
       { op := .jump, text := some "head" },
       { op := .label, text := some "done" },
       { op := .return_, lhs := .symbol "count" }] }

def collatzStart (x : BitVec 64) : IRState (BitVec 64) Cells :=
  cellStart (fun y => if y = "x" then some x else some 0) id

theorem cellMachine_overwrites (resident : String → Bool) : Overwrites (cellMachine resident) where
  twice m x v w := by
    have hIdem : Function.update (Function.update m.residents x v) x w =
        Function.update m.residents x w := by rw [Function.update_idem]
    exact congrArg (fun r => Cells.mk r m.cells) hIdem
  swap m x y v w hNe := by
    have hComm : Function.update (Function.update m.residents x v) y w =
        Function.update (Function.update m.residents y w) x v := by
      rw [Function.update_comm hNe]
    exact congrArg (fun r => Cells.mk r m.cells) hComm
  same m x := congrArg (fun r => Cells.mk r m.cells) (Function.update_eq_self x m.residents)

def collatzMatch : CollatzLoop :=
  { symbol := "x", count := "count", header := "head", done := some "done", odd := "odd"
    join := "join", parity := "p", guardIndex := 1, branchIndex := 2, parityIndex := 3
    compareIndex := 4, evenBranchIndex := 5, evenStepIndex := 6, evenJumpIndex := 7
    oddIndex := 8, mulIndex := 9, addIndex := 10, joinIndex := 11, countIndex := 12
    backIndex := 13
    evenStep :=
      { op := .binary, text := some "/", dest := .symbol "x", lhs := .symbol "x", rhs := .int 2 }
    countInc :=
      { op := .binary, text := some "+", dest := .symbol "count", lhs := .symbol "count"
        rhs := .int 1 } }

theorem collatzFold_exact_iff_seven :
    collatzLoopAt (collatzFunction []).instructions 0 = some collatzMatch ∧
      (CollatzAgrees (cellMachine fun _ => false) (collatzFunction []).instructions 0
          collatzMatch 14 (collatzStart 7) ↔
        NeverLeaps (fun a => (1 : BitVec 64).slt a) (fun a => a.sshiftRight 1) 7) := by
  have hLoop : collatzLoopAt (collatzFunction []).instructions 0 = some collatzMatch := by
    decide
  have hOwn : OwnLoop (collatzFunction []).instructions 0 collatzMatch "done" 14 :=
    ⟨by decide, rfl, by decide, by decide, by decide, ⟨_, rfl, rfl⟩, by decide, rfl⟩
  have hWidths : CollatzWidths (cellMachine fun _ => false) collatzMatch 64 :=
    ⟨fun _ => rfl, by decide, by decide, fun s v w hSame => by
      rw [BitVec.setWidth_eq, BitVec.setWidth_eq] at hSame
      rw [hSame], fun _ => rfl⟩
  exact ⟨hLoop, collatzFold_exact_iff (n := 0) (cellMachine_signed _).collatz hWidths
    (cellMachine_overwrites _) hLoop hOwn rfl rfl rfl⟩

/-- **The count of a leap.** From 3074457345618258603 the first step leads out of the loop, and
the folded loop counts a second one. A jump to the join misses the count that has gone into the
arms. -/
theorem collatz_leaps :
    let run := fun (f : IRFunction) x =>
      ((cellMachine fun _ => false).run f.instructions 20 (.running (collatzStart x))).value
    let jumping := collatzFunction [{ op := .jump, text := some "join" }]
    (run (collatzFunction []) 3074457345618258603 = some 1 ∧
        run (irCollatzOddStepFoldPass (collatzFunction [])) 3074457345618258603 = some 2) ∧
      run jumping 1 = some 1 ∧ run (irCollatzOddStepFoldPass jumping) 1 = some 0 :=
  ⟨⟨by decide, by decide⟩, by decide, by decide⟩

end Mettle.IR
