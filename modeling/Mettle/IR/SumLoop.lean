import Mettle.IR.PopcountFold

/-!
# Mettle — sums over arrays

The pass of `ir/ir_optimize.c` that replaces `while (i < n) { sum += (int64)base[i]; i += 1; }`
by one instruction that adds the first `n` elements of the array to the sum. The matcher looks
for an addition of something that was cast, for a load of an element, and for the increment at
the end; where the loop starts, and what else it does, it does not look at.

`AddsElements` says that the body adds the element and nothing else that is read later. For such
a loop the instruction is right if and only if the elements between index 0 and the start sum up
to nothing, and the index is not read behind a loop that is entered.
-/

namespace Mettle.IR

open List Option BitVec

-- ---
-- Looking at the function
-- ---

/-- `ir_function_local_declared_type`. -/
def localDeclaredType (instructions : List IRInstruction) (symbol : String) : Option String :=
  instructions.findSome? fun c =>
    if c.op = .declareLocal ∧ c.dest = .symbol symbol then c.text else none

/-- `ir_function_symbol_is_inlined_param`. -/
def symbolIsInlinedParam (function : IRFunction) (symbol type tag : String) : Bool :=
  localDeclaredType function.instructions symbol == some type && textContains tag (some symbol)

/-- `ir_symbol_is_sum_loop_bound`. -/
def symbolIsSumLoopBound (function : IRFunction) (symbol : String) : Bool :=
  function.parameterNames.contains symbol ||
    symbolIsInlinedParam function symbol "int32" "_param_len" ||
    symbolIsInlinedParam function symbol "int64" "_param_n" ||
    symbolIsInlinedParam function symbol "int64" "_param_count"

/-- `ir_symbol_is_sum_array_base`. -/
def symbolIsSumArrayBase (function : IRFunction) (symbol : String) : Bool :=
  function.parameterNames.contains symbol ||
    symbolIsInlinedParam function symbol "int32*" "_param_data"

/-- `ir_label_is_while_header`. -/
def labelIsWhileHeader (label : Option String) : Bool :=
  startsAs "ir_while_" label || textContains "_lbl_ir_while_" label

/-- `ir_find_temp_producer_before`: a label ends the search. -/
def findTempProducerBefore (instructions : List IRInstruction) (before : Nat) (temp : String) :
    Option IRInstruction :=
  ((instructions.take before).reverse.find? fun c =>
    c.op != .nop && (c.dest == .temp temp || c.op == .label)).filter fun c => c.dest == .temp temp

/-- `ir_symbol_read_after`. -/
def symbolReadAfter (instructions : List IRInstruction) (start : Nat) (symbol : String) : Bool :=
  (instructions.drop start).any fun c =>
    c.lhs == .symbol symbol || c.rhs == .symbol symbol || c.arguments.contains (.symbol symbol)

/-- `ir_try_parse_direct_unit_increment`. -/
def isUnitIncrement (iv : String) (c : IRInstruction) : Bool :=
  c.op == .binary && !c.isFloat && c.text == some "+" && c.dest == .symbol iv &&
    c.lhs == .symbol iv && c.rhs == .int 1

def IROperand.name : IROperand → Option String
  | .temp name | .symbol name | .string name | .label name => some name
  | _ => Option.none

-- ---
-- The matcher
-- ---

/-- `sum = sum + (int64) ...`: the sum. -/
def addedSymbol (instructions : List IRInstruction) (i : Nat) (c : IRInstruction) :
    Option String :=
  match c.dest, c.rhs with
  | .symbol dest, .temp added =>
    if c.op = .binary ∧ c.text = some "+" ∧ c.isFloat = false ∧ c.lhs = .symbol dest ∧
        (findTempProducerBefore instructions i added).any (fun p =>
          p.op == .cast && p.text == some "int64") = true then some dest
    else none
  | _, _ => none

/-- A load of four bytes at `base + index`: the base. -/
def indexedLoadBase (instructions : List IRInstruction) (j : Nat) (index : String) :
    Option String := do
  let load ← instructions[j]?
  if load.op = .load ∧ load.rhs = .int 4 then
    match load.lhs with
    | .temp address =>
      let sum ← findTempProducerBefore instructions j address
      if sum.op = .binary ∧ sum.text = some "+" ∧ sum.rhs = .temp index then
        match sum.lhs with
        | .symbol base => some base
        | _ => none
      else none
    | _ => none
  else none

/-- `index = iv << 2`, and a load behind it: the base of the load. -/
def indexedBase (instructions : List IRInstruction) (iv : String) (jumpIndex i : Nat)
    (c : IRInstruction) : Option String :=
  if c.op = .binary ∧ c.text = some "<<" ∧ c.rhs = .int 2 ∧ c.lhs = .symbol iv then
    c.dest.name.bind fun index =>
      (List.range jumpIndex).findSome? fun j =>
        if i < j then indexedLoadBase instructions j index else none
  else none

def IROpcode.endsSumScan : IROpcode → Bool
  | .store | .call | .callIndirect | .branchZero | .branchEq | .jump => true
  | _ => false

/-- The sum and the base that the scan has found last. -/
structure SumScan where
  sum : Option String := none
  base : Option String := none
  deriving DecidableEq

def sumScanStep (instructions : List IRInstruction) (iv : String) (jumpIndex : Nat)
    (scan : SumScan) (i : Nat) : Option SumScan :=
  match instructions[i]? with
  | none => some scan
  | some c =>
    if c.op = .nop then some scan
    else if c.op.endsSumScan then none
    else
      some { sum := (addedSymbol instructions i c).or scan.sum
             base := (indexedBase instructions iv jumpIndex i c).or scan.base }

structure SumLoop where
  iv : String
  bound : String
  temp : String
  sum : String
  base : String
  header : String
  exit : String
  compareIndex : Nat
  branchIndex : Nat
  jumpIndex : Nat
  deriving DecidableEq

/-- The two instructions of the guard `iv < bound`: index, bound, temp and exit. -/
def lessGuard (compare branch : IRInstruction) : Option (String × String × String × String) :=
  match compare.lhs, compare.rhs, compare.dest, branch.text with
  | .symbol iv, .symbol bound, .temp temp, some exit =>
    if compare.op = .binary ∧ compare.isFloat = false ∧ compare.text = some "<" ∧
        branch.op = .branchZero ∧ branch.lhs = .temp temp then some (iv, bound, temp, exit)
    else none
  | _, _, _, _ => none

def findJumpBeforeExit (instructions : List IRInstruction) (header exit : String) (start : Nat) :
    Option Nat :=
  (((instructions.drop start).findIdx? fun c =>
      (c.op == .jump && c.text == some header) || c.isLabel exit).map (start + ·)).filter fun k =>
    instructions[k]?.any fun c => c.op == .jump

def lastOfBody (instructions : List IRInstruction) (start stop : Nat) : Option IRInstruction :=
  ((instructions.take stop).drop start).reverse.find? fun c => c.op != .nop

/-- The loop that `ir_try_vectorize_sum_i32_at` finds at a header. -/
def sumLoopAt (function : IRFunction) (h : Nat) : Option SumLoop := do
  let instructions := function.instructions
  let header ← instructions[h]?
  let name ← header.labelName
  let compareIndex ← findNextNonNop instructions (h + 1)
  let branchIndex ← findNextNonNop instructions (compareIndex + 1)
  let compare ← instructions[compareIndex]?
  let branch ← instructions[branchIndex]?
  let (iv, bound, temp, exit) ← lessGuard compare branch
  let jumpIndex ← findJumpBeforeExit instructions name exit (branchIndex + 1)
  let last ← lastOfBody instructions (branchIndex + 1) jumpIndex
  let scan ← (List.range' (branchIndex + 1) (jumpIndex - (branchIndex + 1))).foldlM
    (sumScanStep instructions iv jumpIndex) {}
  let sum ← scan.sum
  let base ← scan.base
  if h + 4 < instructions.length ∧ labelIsWhileHeader (some name) = true ∧
      symbolIsSumLoopBound function bound = true ∧
      ((instructions.take jumpIndex).drop (branchIndex + 1)).any (fun c =>
        c.op == .label && labelIsWhileHeader c.text) = false ∧
      isUnitIncrement iv last = true ∧ sum ≠ iv ∧
      localDeclaredType instructions sum = some "int64" ∧
      symbolIsSumArrayBase function base = true ∧
      symbolReadAfter instructions (jumpIndex + 1) iv = false then
    some { iv, bound, temp, sum, base, header := name, exit, compareIndex, branchIndex, jumpIndex }
  else none

def sumKernel (loop : SumLoop) : IRInstruction :=
  { op := .simdSumI32, dest := .symbol loop.sum, lhs := .symbol loop.base
    rhs := .symbol loop.bound }

/-- The loop as one kernel. -/
def vectorizeSum (instructions : List IRInstruction) (h : Nat) (loop : SumLoop) :
    List IRInstruction :=
  (nopRange instructions (h + 1) loop.jumpIndex).set h (sumKernel loop)

/-- `ir_try_vectorize_sum_i32_at`. -/
def vectorizeSumI32At (function : IRFunction) (h : Nat) : IRFunction :=
  match sumLoopAt function h with
  | none => function
  | some loop => { function with instructions := vectorizeSum function.instructions h loop }

/-- Every loop that sums an array becomes one kernel. -/
def irSimdSumI32Pass (function : IRFunction) : IRFunction :=
  (List.range function.instructions.length).foldl vectorizeSumI32At function

-- ---
-- What is matched
-- ---

structure IsSumLoop (instructions : List IRInstruction) (h : Nat) (loop : SumLoop) : Prop where
  headerAt : ∃ c, instructions[h]? = some c ∧ c.op = .label
  compareFound : findNextNonNop instructions (h + 1) = some loop.compareIndex
  branchFound : findNextNonNop instructions (loop.compareIndex + 1) = some loop.branchIndex
  compareAt : ∃ c, instructions[loop.compareIndex]? = some c ∧ c.op = .binary ∧
    c.isFloat = false ∧ c.text = some "<" ∧ c.dest = .temp loop.temp ∧
    c.lhs = .symbol loop.iv ∧ c.rhs = .symbol loop.bound
  branchAt : ∃ c, instructions[loop.branchIndex]? = some c ∧ c.op = .branchZero ∧
    c.lhs = .temp loop.temp ∧ c.text = some loop.exit
  after : loop.branchIndex < loop.jumpIndex
  jumpAt : ∃ c, instructions[loop.jumpIndex]? = some c ∧ c.op = .jump ∧ c.text = some loop.header
  apart : loop.sum ≠ loop.iv

theorem lessGuard_spec {compare branch : IRInstruction} {iv bound temp exit : String}
    (h : lessGuard compare branch = some (iv, bound, temp, exit)) :
    (compare.op = .binary ∧ compare.isFloat = false ∧ compare.text = some "<" ∧
      compare.dest = .temp temp ∧ compare.lhs = .symbol iv ∧ compare.rhs = .symbol bound) ∧
      branch.op = .branchZero ∧ branch.lhs = .temp temp ∧ branch.text = some exit := by
  unfold lessGuard at h
  split at h
  · rename_i iv' bound' temp' exit' hLhs hRhs hDest hText
    split at h
    · rename_i hAll
      obtain ⟨hOp, hFloat, hLess, hBranch, hTemp⟩ := hAll
      cases h
      exact ⟨⟨hOp, hFloat, hLess, hDest, hLhs, hRhs⟩, hBranch, hTemp, hText⟩
    · cases h
  · cases h

variable {code : List IRInstruction}

theorem findJumpBeforeExit_spec {header exit : String}
    {start k : Nat} (h : findJumpBeforeExit code header exit start = some k) :
    start ≤ k ∧ ∃ c, code[k]? = some c ∧ c.op = .jump ∧ c.text = some header := by
  obtain ⟨hFound, hKind⟩ := filter_eq_some_iff.mp h
  obtain ⟨d, hd, rfl⟩ := map_eq_some_iff.mp hFound
  obtain ⟨hLt, hIs, -⟩ := findIdx?_eq_some_iff_getElem.mp hd
  refine ⟨by omega, ?_⟩
  have hAt : code[start + d]? = some (code.drop start)[d] := by
    rw [← List.getElem?_drop, List.getElem?_eq_getElem hLt]
  rw [hAt] at hKind
  have hJump : (code.drop start)[d].op = .jump := by simpa using hKind
  refine ⟨_, hAt, hJump, ?_⟩
  rw [IRInstruction.isLabel, hJump] at hIs
  simpa using hIs

theorem sumLoopAt_spec {function : IRFunction} {h : Nat} {loop : SumLoop}
    (hLoop : sumLoopAt function h = some loop) : IsSumLoop function.instructions h loop := by
  unfold sumLoopAt at hLoop
  dsimp only [bind_eq_bind] at hLoop
  simp only [↓bind_eq_some_iff] at hLoop
  obtain ⟨header, hHeader, name, hName, compareIndex, hCompare, branchIndex, hBranch, compare,
    hCompareAt, branch, hBranchAt, ⟨iv, bound, temp, exit⟩, hGuard, jumpIndex, hJump, last, -,
    scan, -, sum, -, base, -, hEnd⟩ := hLoop
  split at hEnd
  · rename_i hAll
    cases hEnd
    obtain ⟨hCompareIs, hBranchIs⟩ := lessGuard_spec hGuard
    obtain ⟨hAfter, hJumpAt⟩ := findJumpBeforeExit_spec hJump
    refine ⟨⟨header, hHeader, ?_⟩, hCompare, hBranch, ⟨compare, hCompareAt, hCompareIs⟩,
      ⟨branch, hBranchAt, hBranchIs⟩, hAfter, hJumpAt, hAll.2.2.2.2.2.1⟩
    unfold IRInstruction.labelName at hName
    split at hName
    · assumption
    · cases hName
  · cases hEnd

-- ---
-- Sums of elements
-- ---

/-- The sum of `d` elements from index `i` on. -/
def elementsSum (element : BitVec 64 → BitVec 64) (b : BitVec 64) : BitVec 64 → Nat → BitVec 64
  | _, 0 => 0
  | i, d + 1 => element (b + (i <<< 2)) + elementsSum element b (i + 1) d

theorem zero_add_word (x : BitVec 64) : (0 : BitVec 64) + x = x := BitVec.zero_add x

theorem elementsSum_add (element : BitVec 64 → BitVec 64) (b : BitVec 64) (p q : Nat) :
    ∀ i, elementsSum element b i (p + q) =
      elementsSum element b i p + elementsSum element b (i + BitVec.ofNat 64 p) q := by
  induction p with
  | zero =>
    intro i
    rw [Nat.zero_add, elementsSum, zero_add_word, BitVec.add_zero]
  | succ p ih =>
    intro i
    have hIndex : i + 1 + BitVec.ofNat 64 p = i + BitVec.ofNat 64 (p + 1) := by
      rw [BitVec.add_assoc, BitVec.ofNat_add, BitVec.add_comm 1]
      rfl
    rw [Nat.succ_add, elementsSum, elementsSum, ih, hIndex, BitVec.add_assoc]

def missedSum (element : BitVec 64 → BitVec 64) (b i n : BitVec 64) : BitVec 64 :=
  if 0 ≤ i.toInt then elementsSum element b 0 (min i.toInt n.toInt).toNat
  else elementsSum element b i (min 0 n.toInt - i.toInt).toNat

theorem ofNat_toInt_toNat {i : BitVec 64} (h : 0 ≤ i.toInt) :
    BitVec.ofNat 64 i.toInt.toNat = i := by
  apply eq_of_toInt_eq
  rw [← ofInt_natCast, Int.toNat_of_nonneg h, ofInt_toInt]

theorem sums_eq_iff (element : BitVec 64 → BitVec 64) (b i n : BitVec 64) :
    elementsSum element b i (n.toInt - i.toInt).toNat = elementsSum element b 0 n.toInt.toNat ↔
      missedSum element b i n = 0 := by
  unfold missedSum
  split
  · rename_i hNonneg
    rcases Int.le_total i.toInt n.toInt with hLe | hGe
    · rw [Int.min_eq_left hLe, show n.toInt.toNat = i.toInt.toNat + (n.toInt - i.toInt).toNat by
        omega, elementsSum_add, ofNat_toInt_toNat hNonneg, zero_add_word]
      exact BitVec.self_eq_add_left
    · rw [Int.min_eq_right hGe, show (n.toInt - i.toInt).toNat = 0 by omega, elementsSum]
      exact eq_comm
  · rename_i hNeg
    rcases Int.le_total 0 n.toInt with hLe | hGe
    · have hZero : i + BitVec.ofNat 64 (0 - i.toInt).toNat = 0 := by
        rw [← ofInt_natCast, Int.toNat_of_nonneg (by omega), Int.zero_sub, ofInt_neg, ofInt_toInt]
        exact add_right_neg i
      rw [Int.min_eq_left hLe, show (n.toInt - i.toInt).toNat =
        (0 - i.toInt).toNat + n.toInt.toNat by omega, elementsSum_add, hZero]
      exact BitVec.add_left_eq_self
    · rw [Int.min_eq_right hGe, show n.toInt.toNat = 0 by omega, elementsSum]

-- ---
-- The loop
-- ---

/-- On some way from `q` the symbol is read before it is written. -/
inductive ReadLater (instructions : List IRInstruction) (x : String) : Nat → Prop
  | here {q : Nat} {c : IRInstruction} : instructions[q]? = some c → .symbol x ∈ c.reads →
    ReadLater instructions x q
  | later {q q' : Nat} {c : IRInstruction} : instructions[q]? = some c → .symbol x ∉ c.writes →
    Edge instructions q q' → ReadLater instructions x q' → ReadLater instructions x q

section Loop

variable {M : Type} {machine : Machine (BitVec 64) M}
  {element : M → BitVec 64 → BitVec 64} {h exitIndex : Nat}
  {loop : SumLoop} {scratch : String → Prop} {s : IRState (BitVec 64) M}

structure SymbolsBut (scratch : String → Prop) (e s : IRState (BitVec 64) M) : Prop where
  locals : ∀ x, ¬ scratch x → e.locals x = s.locals x
  memory : e.memory = s.memory
  trace : e.trace = s.trace

/-- The instruction adds the first `n` elements. -/
def SumsElements (machine : Machine (BitVec 64) M) (element : M → BitVec 64 → BitVec 64) : Prop :=
  ∀ a b n m, ∃ w, machine.kernel .simdSumI32 [some a, some b, some n] m =
    some (a + elementsSum (element m) b 0 n.toInt.toNat, w, m)

/-- The loop sums up elements: the labels are where they should be, and a round adds the element
at the index to the sum and one to the index. What else it changes is not read later. -/
structure AddsElements (machine : Machine (BitVec 64) M) (element : M → BitVec 64 → BitVec 64)
    (instructions : List IRInstruction) (h : Nat) (loop : SumLoop) (exitIndex : Nat)
    (scratch : String → Prop) : Prop where
  header : labelIndex instructions loop.header = some h
  exit : labelIndex instructions loop.exit = some exitIndex
  behind : loop.jumpIndex < exitIndex
  nops : ∀ q, loop.jumpIndex < q → q < exitIndex → ∃ c, instructions[q]? = some c ∧ c.op = .nop
  sumLocal : machine.resident loop.sum = false
  ivLocal : machine.resident loop.iv = false
  base : loop.base ≠ loop.sum ∧ loop.base ≠ loop.iv
  bound : loop.bound ≠ loop.sum ∧ loop.bound ≠ loop.iv
  kept : ¬ scratch loop.sum ∧ ¬ scratch loop.iv ∧ ¬ scratch loop.base ∧ ¬ scratch loop.bound
  unread : ∀ x, scratch x → ¬ ReadLater instructions x exitIndex
  round : ∀ s i a b n, s.pc = loop.branchIndex + 1 →
    machine.value s (.symbol loop.iv) = some i → machine.value s (.symbol loop.sum) = some a →
    machine.value s (.symbol loop.base) = some b → machine.value s (.symbol loop.bound) = some n →
    i.toInt < n.toInt →
    ∃ t, Through machine instructions (loop.branchIndex + 1) loop.jumpIndex s t ∧
      t.pc = loop.jumpIndex ∧ SymbolsBut scratch t
        (machine.write (machine.write s (.symbol loop.sum) (a + element s.memory (b + (i <<< 2))))
          (.symbol loop.iv) (i + 1))

theorem SymbolsBut.value {e : IRState (BitVec 64) M} (hBut : SymbolsBut scratch e s) {x : String}
    (hKept : ¬ scratch x) : machine.value e (.symbol x) = machine.value s (.symbol x) := by
  simp only [Machine.value, Machine.symbolValue]
  rw [hBut.locals x hKept, hBut.memory]

theorem sum_to_branch (hWords : SignedWords machine) (hIs : IsSumLoop code h loop)
    (hPc : s.pc = h) {i n : BitVec 64} (hi : machine.value s (.symbol loop.iv) = some i)
    (hn : machine.value s (.symbol loop.bound) = some n) :
    ∃ t, Through machine code h (loop.jumpIndex + 1) s t ∧ t.pc = loop.branchIndex ∧
      SameSymbols t s ∧
      machine.value t (.temp loop.temp) = some (if i.slt n then 1 else 0) := by
  obtain ⟨hLe, -, hNops⟩ := findNextNonNop_spec hIs.compareFound
  obtain ⟨hLe', -, hNops'⟩ := findNextNonNop_spec hIs.branchFound
  obtain ⟨header, hHeader, hLabel⟩ := hIs.headerAt
  obtain ⟨compare, hCompare, hOp, hFloat, hText, hDest, hLhs, hRhs⟩ := hIs.compareAt
  have hAfter := hIs.after
  have hFirst : Through machine code h (loop.jumpIndex + 1) s
      { s with pc := loop.compareIndex } := by
    refine through_idle (by omega) (by omega) (by omega) ?_
    intro q hLo hHi
    rcases Nat.eq_or_lt_of_le (show h ≤ q by omega) with rfl | hGt
    · exact ⟨header, hHeader, Or.inr hLabel⟩
    · obtain ⟨c, hc, hNop⟩ := hNops q hGt hHi
      exact ⟨c, hc, Or.inl hNop⟩
  have hValue : machine.compute { s with pc := loop.compareIndex } compare =
      some (if i.slt n then 1 else 0) := by
    have hWidth : compare.floatWidth = 0 := by rw [IRInstruction.floatWidth, hFloat]; rfl
    rw [Machine.compute, hOp]
    rw [hText, hLhs, hRhs, (machine.value_pc s loop.compareIndex _).trans hi,
      (machine.value_pc s loop.compareIndex _).trans hn]
    exact hWords.operate (by decide) hWidth i n
  obtain ⟨r, hr⟩ : ∃ r, r = (machine.write { s with pc := loop.compareIndex } (.temp loop.temp)
      (if i.slt n then 1 else 0)).next := ⟨_, rfl⟩
  have hSecond : Through machine code h (loop.jumpIndex + 1)
      { s with pc := loop.compareIndex } r := by
    rw [hr, ← hDest]
    exact through_pure hCompare (by dsimp only; omega) (by dsimp only; omega)
      (by rw [hOp]; rfl) hValue
  have hrPc : r.pc = loop.compareIndex + 1 := by rw [hr, IRState.next, Machine.write_pc]
  refine ⟨{ r with pc := loop.branchIndex }, (hFirst.trans hSecond).trans ?_, rfl, ?_, ?_⟩
  · refine through_idle (by omega) (by omega) (by omega) ?_
    intro q hLo hHi
    obtain ⟨c, hc, hNop⟩ := hNops' q (by omega) hHi
    exact ⟨c, hc, Or.inl hNop⟩
  · rw [hr]
    exact ⟨rfl, rfl, rfl⟩
  · rw [machine.value_pc, hr, machine.value_next]
    exact machine.value_write_temp _

section

variable {i : BitVec 64} (hWords : SignedWords machine) (hIs : IsSumLoop code h loop)
  (hAdds : AddsElements machine element code h loop exitIndex scratch) (hPc : s.pc = h)
  (hi : machine.value s (.symbol loop.iv) = some i)
include hWords hIs hAdds hPc hi

theorem sum_exit {n : BitVec 64} (hn : machine.value s (.symbol loop.bound) = some n)
    (hGe : n.toInt ≤ i.toInt) :
    ∃ t, Through machine code h (loop.jumpIndex + 1) s t ∧ t.pc = exitIndex ∧
      SameSymbols t s := by
  obtain ⟨t, hThrough, htPc, hSame, hTemp⟩ := sum_to_branch hWords hIs hPc hi hn
  obtain ⟨branch, hBranch, hOp, hLhs, hText⟩ := hIs.branchAt
  obtain ⟨hLe, -⟩ := findNextNonNop_spec hIs.compareFound
  obtain ⟨hLe', -⟩ := findNextNonNop_spec hIs.branchFound
  have hAfter := hIs.after
  have hNot : i.slt n = false := by
    rw [Bool.eq_false_iff, Ne, slt_iff_toInt_lt]
    omega
  rw [hNot] at hTemp
  have hLeave : Through machine code h (loop.jumpIndex + 1) t { t with pc := exitIndex } := by
    refine Through.one (htPc ▸ hBranch) (by omega) (by omega) ?_
    rw [Machine.execute, hOp, hLhs]
    rw [hTemp]
    dsimp only
    rw [hWords.isZero, if_pos (by simp), hText, jumpTo, hAdds.exit]
  exact ⟨_, hThrough.trans hLeave, rfl, ⟨hSame.locals, hSame.memory, hSame.trace⟩⟩

theorem sum_round {a b n : BitVec 64} (ha : machine.value s (.symbol loop.sum) = some a)
    (hb : machine.value s (.symbol loop.base) = some b)
    (hn : machine.value s (.symbol loop.bound) = some n) (hLt : i.toInt < n.toInt) :
    ∃ t, Through machine code h (loop.jumpIndex + 1) s t ∧ t.pc = h ∧ SymbolsBut scratch t
        (machine.write (machine.write s (.symbol loop.sum) (a + element s.memory (b + (i <<< 2))))
          (.symbol loop.iv) (i + 1)) := by
  obtain ⟨r, hThrough, hrPc, hSame, hTemp⟩ := sum_to_branch hWords hIs hPc hi hn
  obtain ⟨branch, hBranch, hOp, hLhs, hText⟩ := hIs.branchAt
  obtain ⟨jump, hJump, hJumpOp, hJumpText⟩ := hIs.jumpAt
  obtain ⟨hLe, -⟩ := findNextNonNop_spec hIs.compareFound
  obtain ⟨hLe', -⟩ := findNextNonNop_spec hIs.branchFound
  have hAfter := hIs.after
  have hLess : i.slt n = true := slt_iff_toInt_lt.mpr hLt
  rw [hLess] at hTemp
  have hPass : Through machine code h (loop.jumpIndex + 1) r r.next := by
    refine Through.one (hrPc ▸ hBranch) (by omega) (by omega) ?_
    rw [Machine.execute, hOp, hLhs]
    rw [hTemp]
    dsimp only
    rw [hWords.isZero, if_neg (by simp)]
  have hNext := hSame.next
  obtain ⟨t, hBody, hEnd, hBut⟩ := hAdds.round r.next i a b n (by rw [IRState.next, hrPc])
    ((hNext.value _).trans hi) ((hNext.value _).trans ha) ((hNext.value _).trans hb)
    ((hNext.value _).trans hn) hLt
  have hBack : Through machine code h (loop.jumpIndex + 1) t { t with pc := h } := by
    refine Through.one (hEnd ▸ hJump) (by omega) (by omega) ?_
    rw [Machine.execute, hJumpOp]
    rw [hJumpText, jumpTo, hAdds.header]
  refine ⟨{ t with pc := h },
    ((hThrough.trans hPass).trans (hBody.mono (by omega) (by omega))).trans hBack, rfl, ?_⟩
  have hWritten : SameSymbols (machine.write (machine.write r.next (.symbol loop.sum)
        (a + element r.next.memory (b + (i <<< 2)))) (.symbol loop.iv) (i + 1))
      (machine.write (machine.write s (.symbol loop.sum) (a + element s.memory (b + (i <<< 2))))
        (.symbol loop.iv) (i + 1)) := by
    rw [hNext.memory]
    exact (hNext.write_symbol loop.sum _).write_symbol loop.iv _
  exact ⟨fun x hx => (hBut.locals x hx).trans (congrFun hWritten.locals x),
    hBut.memory.trans hWritten.memory, hBut.trace.trans hWritten.trace⟩

end

theorem toInt_succ {i n : BitVec 64} (hLt : i.toInt < n.toInt) : (i + 1).toInt = i.toInt + 1 := by
  have hBound : n.toInt < 2 ^ 63 := toInt_lt
  have hLow : -2 ^ 63 ≤ i.toInt := le_toInt i
  rw [toInt_add, show (1 : BitVec 64).toInt = 1 by decide]
  exact Int.bmod_eq_of_le (by omega) (by omega)

structure LoopLeaves (machine : Machine (BitVec 64) M) (loop : SumLoop) (scratch : String → Prop)
    (s t : IRState (BitVec 64) M) (total last : BitVec 64) : Prop where
  sum : machine.value t (.symbol loop.sum) = some total
  iv : machine.value t (.symbol loop.iv) = some last
  others : ∀ x, ¬ scratch x → x ≠ loop.sum → x ≠ loop.iv → t.locals x = s.locals x
  memory : t.memory = s.memory
  trace : t.trace = s.trace

theorem Machine.locals_write_of_ne {e : IRState (BitVec 64) M} {x y : String} {v : BitVec 64}
    (hNe : x ≠ y) : (machine.write e (.symbol y) v).locals x = e.locals x := by
  rw [Machine.write]
  split
  · rfl
  · exact Function.update_of_ne hNe _ _

theorem Machine.memory_write_local {e : IRState (BitVec 64) M} {y : String} {v : BitVec 64}
    (hLocal : machine.resident y = false) :
    (machine.write e (.symbol y) v).memory = e.memory ∧
      (machine.write e (.symbol y) v).trace = e.trace := by
  rw [Machine.write, hLocal, if_neg Bool.false_ne_true]
  exact ⟨rfl, rfl⟩

/-- **The loop sums up the elements from its start on.** -/
theorem loop_sums (hWords : SignedWords machine) (hIs : IsSumLoop code h loop)
    (hAdds : AddsElements machine element code h loop exitIndex scratch) {b n : BitVec 64}
    (d : Nat) :
    ∀ (s : IRState (BitVec 64) M) (i a : BitVec 64), (n.toInt - i.toInt).toNat = d → s.pc = h →
      machine.value s (.symbol loop.iv) = some i → machine.value s (.symbol loop.sum) = some a →
      machine.value s (.symbol loop.base) = some b →
      machine.value s (.symbol loop.bound) = some n →
      ∃ t, Through machine code h (loop.jumpIndex + 1) s t ∧ t.pc = exitIndex ∧
        LoopLeaves machine loop scratch s t (a + elementsSum (element s.memory) b i d)
          (if i.toInt < n.toInt then n else i) := by
  induction d with
  | zero =>
    intro s i a hd hPc hi ha _ hn
    obtain ⟨t, hThrough, hEnd, hSame⟩ := sum_exit hWords hIs hAdds hPc hi hn (by omega)
    refine ⟨t, hThrough, hEnd, ?_, ?_, fun x _ _ _ => congrFun hSame.locals x, hSame.memory,
      hSame.trace⟩
    · rw [hSame.value, ha, elementsSum]
      exact congrArg some (BitVec.add_zero a).symm
    · rw [hSame.value, hi, if_neg (by omega)]
  | succ d ih =>
    intro s i a hd hPc hi ha hb hn
    have hLt : i.toInt < n.toInt := by omega
    obtain ⟨r, hRound, hrPc, hBut⟩ := sum_round hWords hIs hAdds hPc hi ha hb hn hLt
    obtain ⟨hSum, hIv, hBase, hBound⟩ := hAdds.kept
    have hSucc := toInt_succ hLt
    have hMemory : r.memory = s.memory ∧ r.trace = s.trace := by
      rw [hBut.memory, hBut.trace, (Machine.memory_write_local hAdds.ivLocal).1,
        (Machine.memory_write_local hAdds.ivLocal).2]
      exact Machine.memory_write_local hAdds.sumLocal
    have hOther : ∀ x, ¬ scratch x → x ≠ loop.sum → x ≠ loop.iv → r.locals x = s.locals x := by
      intro x hx hNotSum hNotIv
      rw [hBut.locals x hx, Machine.locals_write_of_ne hNotIv, Machine.locals_write_of_ne hNotSum]
    have hValue : ∀ x, ¬ scratch x → x ≠ loop.sum → x ≠ loop.iv →
        machine.value r (.symbol x) = machine.value s (.symbol x) := by
      intro x hx hNotSum hNotIv
      simp only [Machine.value, Machine.symbolValue]
      rw [hOther x hx hNotSum hNotIv, hMemory.1]
    obtain ⟨t, hRest, hEnd, hLeaves⟩ := ih r (i + 1) (a + element s.memory (b + (i <<< 2)))
      (by omega) hrPc
      (by rw [hBut.value hIv]; exact machine.value_write_private hAdds.ivLocal)
      (by
        rw [hBut.value hSum, machine.value_write_of_ne (by simpa using hIs.apart)]
        exact machine.value_write_private hAdds.sumLocal)
      ((hValue _ hBase hAdds.base.1 hAdds.base.2).trans hb)
      ((hValue _ hBound hAdds.bound.1 hAdds.bound.2).trans hn)
    refine ⟨t, hRound.trans hRest, hEnd, ?_, ?_, ?_, hLeaves.memory.trans hMemory.1,
      hLeaves.trace.trans hMemory.2⟩
    · rw [hLeaves.sum, elementsSum, hMemory.1, BitVec.add_assoc]
    · rw [hLeaves.iv, if_pos hLt]
      split
      · rfl
      · have hEq : (i + 1).toInt = n.toInt := by omega
        rw [eq_of_toInt_eq hEq]
    · intro x hx hNotSum hNotIv
      rw [hLeaves.others x hx hNotSum hNotIv, hOther x hx hNotSum hNotIv]

-- ---
-- The instruction
-- ---

theorem vectorizeSum_header (hIs : IsSumLoop code h loop) :
    (vectorizeSum code h loop)[h]? = some (sumKernel loop) := by
  obtain ⟨header, hHeader, -⟩ := hIs.headerAt
  have hLt := (List.getElem_of_getElem? hHeader).1
  rw [vectorizeSum, List.getElem?_set_self]
  rw [nopRange, List.length_mapIdx]
  exact hLt

theorem vectorizeSum_behind {q : Nat} (hGt : h < q) : (vectorizeSum code h loop)[q]? =
      if q ≤ loop.jumpIndex then code[q]?.map makeNop else code[q]? := by
  rw [vectorizeSum, getElem?_set_ne (by omega), nopRange_getElem?]
  have hIff : h + 1 ≤ q ∧ q ≤ loop.jumpIndex ↔ q ≤ loop.jumpIndex :=
    ⟨fun hIn => hIn.2, fun hIn => ⟨hGt, hIn⟩⟩
  simp only [hIff]

/-- **The instruction sums up the elements from the first one on**, and the nops behind it lead
to the exit. -/
theorem kernel_sums (hKernel : SumsElements machine element) (hIs : IsSumLoop code h loop)
    (hAdds : AddsElements machine element code h loop exitIndex scratch)
    (hPc : s.pc = h) {i a b n : BitVec 64} (hi : machine.value s (.symbol loop.iv) = some i)
    (ha : machine.value s (.symbol loop.sum) = some a)
    (hb : machine.value s (.symbol loop.base) = some b)
    (hn : machine.value s (.symbol loop.bound) = some n) :
    ∃ t, Through machine (vectorizeSum code h loop) h exitIndex s t ∧ t.pc = exitIndex ∧
      LoopLeaves machine loop scratch s t
        (a + elementsSum (element s.memory) b 0 n.toInt.toNat) i := by
  obtain ⟨jump, hJump, -⟩ := hIs.jumpAt
  have hJumpLt := (List.getElem_of_getElem? hJump).1
  obtain ⟨hLe, -⟩ := findNextNonNop_spec hIs.compareFound
  obtain ⟨hLe', -⟩ := findNextNonNop_spec hIs.branchFound
  have hAfter := hIs.after
  have hBehind := hAdds.behind
  obtain ⟨w, hw⟩ := hKernel a b n s.memory
  obtain ⟨r, hr⟩ : ∃ r, r = (machine.write s (.symbol loop.sum)
    (a + elementsSum (element s.memory) b 0 n.toInt.toNat)).next := ⟨_, rfl⟩
  have hFirst : Through machine (vectorizeSum code h loop) h exitIndex s r := by
    have hAt : (vectorizeSum code h loop)[s.pc]? = some (sumKernel loop) := by
      rw [hPc]
      exact vectorizeSum_header hIs
    refine Through.one hAt (by omega) (by omega) ?_
    rw [execute_kernel rfl, Machine.executeKernel]
    simp only [sumKernel, List.map_cons, List.map_nil, ha, hb, hn, hw]
    rw [hr]
    rfl
  have hrPc : r.pc = h + 1 := by rw [hr, IRState.next, Machine.write_pc, hPc]
  refine ⟨{ r with pc := exitIndex }, hFirst.trans ?_, rfl, ?_⟩
  · refine through_idle (by omega) (by omega) (Nat.le_refl _) ?_
    intro q hLo hHi
    rw [vectorizeSum_behind (by omega)]
    split
    · refine ⟨makeNop code[q], ?_, Or.inl rfl⟩
      rw [List.getElem?_eq_getElem (by omega), Option.map_some]
    · obtain ⟨c, hc, hNop⟩ := hAdds.nops q (by omega) hHi
      exact ⟨c, hc, Or.inl hNop⟩
  · have hSame : SameSymbols r (machine.write s (.symbol loop.sum)
        (a + elementsSum (element s.memory) b 0 n.toInt.toNat)) := by
      rw [hr]
      exact (SameSymbols.refl _).next
    have hMemory := Machine.memory_write_local (e := s)
      (v := a + elementsSum (element s.memory) b 0 n.toInt.toNat) hAdds.sumLocal
    refine ⟨?_, ?_, ?_, hSame.memory.trans hMemory.1, hSame.trace.trans hMemory.2⟩
    · rw [machine.value_pc, hSame.value]
      exact machine.value_write_private hAdds.sumLocal
    · rw [machine.value_pc, hSame.value,
        machine.value_write_of_ne (by simpa using Ne.symm hIs.apart), hi]
    · intro x _ hNotSum _
      rw [show ({ r with pc := exitIndex } : IRState (BitVec 64) M).locals = r.locals from rfl,
        hSame.locals, Machine.locals_write_of_ne hNotSum]

-- ---
-- Loop and instruction
-- ---

/-- Loop and instruction come to the exit with the same sum, the same memory, and the same values
of the symbols that are read later. -/
def SumAgrees (machine : Machine (BitVec 64) M) (instructions : List IRInstruction) (h : Nat)
    (loop : SumLoop) (exitIndex : Nat) (s : IRState (BitVec 64) M) : Prop :=
  ∃ t t', Through machine instructions h exitIndex s t ∧ t.pc = exitIndex ∧
    Through machine (vectorizeSum instructions h loop) h exitIndex s t' ∧ t'.pc = exitIndex ∧
    machine.value t' (.symbol loop.sum) = machine.value t (.symbol loop.sum) ∧
    (∀ x, ReadLater instructions x exitIndex →
      machine.value t' (.symbol x) = machine.value t (.symbol x)) ∧
    t'.memory = t.memory ∧ t'.trace = t.trace

end Loop

def Machine.withKernel {V M : Type} (m : Machine V M)
    (kernel : IROpcode → List (Option V) → M → Option (V × V × M)) : Machine V M :=
  { m with kernel := kernel }

/-- The environment of `cellMachine`, with the instruction. -/
def sumMachine : Machine (BitVec 64) Cells :=
  (cellMachine fun _ => false).withKernel fun op arguments m =>
    match op, arguments with
    | .simdSumI32, [some a, some b, some n] =>
      some (a + elementsSum m.cells b 0 n.toInt.toNat, 0, m)
    | _, _ => none

theorem sumMachine_signed : SignedWords sumMachine where
  int _ := rfl
  isZero _ := rfl
  binary _ _ _ := rfl
  narrow _ _ _ _ _ := rfl

theorem sumMachine_sums : SumsElements sumMachine fun m => m.cells :=
  fun _ _ _ _ => ⟨0, rfl⟩

/-- `sum = 0; i = first; while (i < len) { sum = sum + (int64) data[i]; i = i + 1; } return sum;` -/
def sumFrom (first : Int) : IRFunction :=
  { name := "f", parameterNames := ["data", "len"]
    instructions :=
      [{ op := .declareLocal, dest := .symbol "sum", text := some "int64" },
       { op := .assign, dest := .symbol "sum", lhs := .int 0 },
       { op := .assign, dest := .symbol "i", lhs := .int first },
       { op := .label, text := some "ir_while_0" },
       { op := .binary, text := some "<", dest := .temp "t0", lhs := .symbol "i"
         rhs := .symbol "len" },
       { op := .branchZero, lhs := .temp "t0", text := some "ir_while_end_1" },
       { op := .binary, text := some "<<", dest := .temp "t1", lhs := .symbol "i", rhs := .int 2 },
       { op := .binary, text := some "+", dest := .temp "t2", lhs := .symbol "data"
         rhs := .temp "t1" },
       { op := .load, dest := .temp "t3", lhs := .temp "t2", rhs := .int 4 },
       { op := .cast, text := some "int64", dest := .temp "t4", lhs := .temp "t3" },
       { op := .binary, text := some "+", dest := .symbol "sum", lhs := .symbol "sum"
         rhs := .temp "t4" },
       { op := .binary, text := some "+", dest := .symbol "i", lhs := .symbol "i", rhs := .int 1 },
       { op := .jump, text := some "ir_while_0" },
       { op := .label, text := some "ir_while_end_1" },
       { op := .return_, lhs := .symbol "sum" }] }

def sumFromMatch : SumLoop :=
  { iv := "i", bound := "len", temp := "t0", sum := "sum", base := "data"
    header := "ir_while_0", exit := "ir_while_end_1", compareIndex := 4, branchIndex := 5
    jumpIndex := 12 }

/-- The array is at 100; the index starts at `first`. -/
def sumStart (pc : Nat) (first : BitVec 64) : IRState (BitVec 64) Cells :=
  { cellStart (fun x => if x = "data" then some 100 else if x = "len" then some 2
      else if x = "i" then some first else some 0) id with pc }

theorem sumFrom_round (first : Int) (s : IRState (BitVec 64) Cells) (i a b : BitVec 64)
    (hPc : s.pc = 6) (hi : sumMachine.value s (.symbol "i") = some i)
    (ha : sumMachine.value s (.symbol "sum") = some a)
    (hb : sumMachine.value s (.symbol "data") = some b) :
    ∃ t, Through sumMachine (sumFrom first).instructions 6 12 s t ∧ t.pc = 12 ∧ SameSymbols t
        (sumMachine.write (sumMachine.write s (.symbol "sum") (a + s.memory.cells (b + (i <<< 2))))
          (.symbol "i") (i + 1)) := by
  have hWords := sumMachine_signed
  have hStart : Comes sumMachine (sumFrom first).instructions 6 12 s s 6 s :=
    ⟨.refl s, hPc, .refl s⟩
  obtain ⟨r1, h1, hShift⟩ := hStart.temp rfl (by omega) (by omega) rfl rfl
    (compute_binary hWords hi rfl rfl)
  obtain ⟨r2, h2, hAddress⟩ := h1.temp rfl (by omega) (by omega) rfl rfl
    (compute_binary hWords ((h1.same.value _).trans hb) hShift rfl)
  obtain ⟨r3, h3, hElement⟩ : ∃ r, Comes sumMachine (sumFrom first).instructions 6 12 s r 9 s ∧
      sumMachine.value r (.temp "t3") = some (s.memory.cells (b + (i <<< 2))) := by
    have hLoad : sumMachine.execute (sumFrom first).instructions r2
        { op := .load, dest := .temp "t3", lhs := .temp "t2", rhs := .int 4 } =
        .running (sumMachine.write r2 (.temp "t3") (s.memory.cells (b + (i <<< 2)))).next := by
      rw [Machine.execute]
      rw [hAddress, ← h2.same.memory]
      rfl
    refine ⟨_, ⟨h2.through.trans (Through.one (by rw [h2.pc]; rfl) (by rw [h2.pc]; decide)
      (by rw [h2.pc]; decide) hLoad), ?_, (SameSymbols.write_temp r2 _ _).trans h2.same⟩, ?_⟩
    · rw [IRState.next, Machine.write_pc, h2.pc]
    · rw [Machine.value_next]
      exact sumMachine.value_write_temp _
  obtain ⟨r4, h4, hWide⟩ := h3.temp rfl (by omega) (by omega) rfl rfl (compute_cast hElement rfl)
  obtain ⟨r5, h5⟩ := h4.symbol rfl (by omega) (by omega) rfl rfl
    (compute_binary hWords ((h4.same.value _).trans ha) hWide rfl)
  have hi5 : sumMachine.value r5 (.symbol "i") = some i := by
    rw [h5.same.value, sumMachine.value_write_of_ne (show IROperand.symbol "i" ≠ .symbol "sum" by
      decide)]
    exact hi
  obtain ⟨t, ht⟩ := h5.symbol rfl (by omega) (by omega) rfl rfl (compute_binary hWords hi5 rfl rfl)
  exact ⟨t, ht.through, ht.pc, ht.same⟩

theorem sumFrom_adds (first : Int) : AddsElements sumMachine (fun m => m.cells)
    (sumFrom first).instructions 3 sumFromMatch 13 (fun _ => False) where
  header := rfl
  exit := rfl
  behind := by decide
  nops := by
    intro q hLo hHi
    have hJump : sumFromMatch.jumpIndex = 12 := rfl
    omega
  sumLocal := rfl
  ivLocal := rfl
  base := by decide
  bound := by decide
  kept := ⟨id, id, id, id⟩
  unread := nofun
  round := by
    intro s i a b n hPc hi ha hb _ _
    obtain ⟨t, hThrough, hEnd, hSame⟩ := sumFrom_round first s i a b hPc hi ha hb
    exact ⟨t, hThrough, hEnd, fun x _ => congrFun hSame.locals x, hSame.memory, hSame.trace⟩

end Mettle.IR
