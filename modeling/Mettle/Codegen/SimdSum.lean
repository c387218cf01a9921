import Mathlib.Algebra.BigOperators.Group.Finset.Basic
import Mathlib.Data.BitVec
import Mathlib.Tactic.Ring
import Mettle.Codegen.SimdMachine

/-!
# Mettle — the vector sum kernel

The code of `IR_OP_SIMD_SUM_I32`. It takes four elements at a time, and extracts them from one
register that it shuffles while it does so: the third shuffle takes the lane that the first one has
overwritten. So the first two elements of every four are added twice, and the last two not at all.
The length is compared as an unsigned number.
-/

namespace Mettle.Codegen

open Mettle.Lib

/-- `code_generator_binary_emit_simd_sum_i32`, between the loads of its operands and the store of
its destination: `rax` is the sum, `rcx` the base, `edx` the index and `r8d` the length. -/
def simdSumI32 : List Simd :=
  [.xorSelf32 .rdx,
   -- loop_top
   .cmp32 .rdx .r8, .jump .aboveEqual 33,
   .mov32 .r9 .r8, .sub32 .r9 .rdx, .cmpImm32 .r9 4, .jump .aboveEqual 8, .jump .always 27,
   -- j_vec
   .movdquLoad 0 .rcx 0, .movdFromXmm .r10 0, .movsxd .r10 .r10, .add .rax .r10,
   .pshufd 0 0 1, .movdFromXmm .r10 0, .movsxd .r10 .r10, .add .rax .r10,
   .pshufd 0 0 2, .movdFromXmm .r10 0, .movsxd .r10 .r10, .add .rax .r10,
   .pshufd 0 0 3, .movdFromXmm .r10 0, .movsxd .r10 .r10, .add .rax .r10,
   .addImm .rcx 16, .addImm .rdx 4, .jump .always 1,
   -- j_scalar
   .load32 .r10 .rcx, .movsxd .r10 .r10, .add .rax .r10, .addImm .rcx 4, .addImm .rdx 1,
   .jump .always 1]

section Kernel

variable (memory : ByteMemory) (base : Word)

def wide (i : Nat) : Word := (element memory base i).signExtend 64

/-- What the kernel adds for `m` elements from the one at `i` on. -/
def addedFrom : Nat → Nat → Word
  | i, m + 4 =>
    wide memory base i + wide memory base (i + 1) + wide memory base i + wide memory base (i + 1) +
      addedFrom (i + 4) m
  | i, m + 1 => wide memory base i + addedFrom (i + 1) m
  | _, 0 => 0

def readFrom : Nat → Nat → List (Word × Nat)
  | i, m + 4 => (base + BitVec.ofNat 64 (4 * i), 16) :: readFrom (i + 4) m
  | i, m + 1 => (base + BitVec.ofNat 64 (4 * i), 4) :: readFrom (i + 1) m
  | _, 0 => []

/-- The kernel has ended with every element added once, has read nothing but the elements and has
written nothing. -/
def SumsElements (s : SimdState) : Prop :=
  ∃ last, Halts simdSumI32 s last ∧ last.registers .rax = s.registers .rax +
      ∑ i ∈ Finset.range (s.low .r8).toInt.toNat, wide s.memory (s.registers .rcx) i ∧
    last.memory = s.memory ∧
    ∀ read ∈ last.reads, ∀ j < read.2, ∃ k < 4 * (s.low .r8).toInt.toNat,
      read.1 + BitVec.ofNat 64 j = s.registers .rcx + BitVec.ofNat 64 k

end Kernel

-- ---
-- The rounds
-- ---

section Rounds

variable {s : SimdState}

theorem sum_round_done (hPc : s.pc = 1)
    (hBelow : ((s.registers .rdx).setWidth 32).ult ((s.registers .r8).setWidth 32) = false) :
    simdRun simdSumI32 2 s = { s with
      flags := compareWords ((s.registers .rdx).setWidth 32) ((s.registers .r8).setWidth 32)
      pc := 33 } := by
  obtain ⟨registers, lanes, memory, flags, reads, pc⟩ := s
  obtain rfl : pc = 1 := hPc
  have h : ((registers .rdx).setWidth 32).ult ((registers .r8).setWidth 32) = false := hBelow
  simp [simdSumI32, h]

section

variable (hPc : s.pc = 1)
  (hBelow : ((s.registers .rdx).setWidth 32).ult ((s.registers .r8).setWidth 32) = true)
include hPc hBelow

theorem sum_round_vector
    (hFour : ((s.registers .r8).setWidth 32 - (s.registers .rdx).setWidth 32).ult 4#32 = false) :
    ∃ t, simdRun simdSumI32 25 s = t ∧ t.pc = 1 ∧
      t.registers .rcx = s.registers .rcx + 16 ∧ t.registers .rdx = s.registers .rdx + 4 ∧
      t.registers .r8 = s.registers .r8 ∧ t.memory = s.memory ∧
      t.reads = s.reads ++ [(s.registers .rcx, 16)] ∧
      t.registers .rax = s.registers .rax + (lanesAt s.memory (s.registers .rcx) 0).signExtend 64 +
        (lanesAt s.memory (s.registers .rcx) 1).signExtend 64 +
        (lanesAt s.memory (s.registers .rcx) 0).signExtend 64 +
        (lanesAt s.memory (s.registers .rcx) 1).signExtend 64 := by
  obtain ⟨registers, lanes, memory, flags, reads, pc⟩ := s
  obtain rfl : pc = 1 := hPc
  have h : ((registers .rdx).setWidth 32).ult ((registers .r8).setWidth 32) = true := hBelow
  have h' : ((registers .r8).setWidth 32 - (registers .rdx).setWidth 32).ult 4#32 = false := hFour
  refine ⟨_, rfl, ?_⟩
  simp [simdSumI32, shuffled, h, h']

theorem sum_round_scalar
    (hFour : ((s.registers .r8).setWidth 32 - (s.registers .rdx).setWidth 32).ult 4#32 = true) :
    ∃ t, simdRun simdSumI32 13 s = t ∧ t.pc = 1 ∧
      t.registers .rcx = s.registers .rcx + 4 ∧ t.registers .rdx = s.registers .rdx + 1 ∧
      t.registers .r8 = s.registers .r8 ∧ t.memory = s.memory ∧
      t.reads = s.reads ++ [(s.registers .rcx, 4)] ∧
      t.registers .rax = s.registers .rax + (word32 s.memory (s.registers .rcx)).signExtend 64 := by
  obtain ⟨registers, lanes, memory, flags, reads, pc⟩ := s
  obtain rfl : pc = 1 := hPc
  have h : ((registers .rdx).setWidth 32).ult ((registers .r8).setWidth 32) = true := hBelow
  have h' : ((registers .r8).setWidth 32 - (registers .rdx).setWidth 32).ult 4#32 = true := hFour
  refine ⟨_, rfl, ?_⟩
  simp [simdSumI32, h, h']

end

end Rounds

-- ---
-- The loop
-- ---

section Loop

variable {memory : ByteMemory} {base : Word}

theorem addedFrom_scalar (i : Nat) {m : Nat} (hPos : 0 < m) (hFour : m < 4) :
    addedFrom memory base i m = wide memory base i + addedFrom memory base (i + 1) (m - 1) := by
  obtain rfl | rfl | rfl : m = 1 ∨ m = 2 ∨ m = 3 := by omega
  all_goals rfl

theorem readFrom_scalar (i : Nat) {m : Nat} (hPos : 0 < m) (hFour : m < 4) :
    readFrom base i m = (base + BitVec.ofNat 64 (4 * i), 4) :: readFrom base (i + 1) (m - 1) := by
  obtain rfl | rfl | rfl : m = 1 ∨ m = 2 ∨ m = 3 := by omega
  all_goals rfl

/-- The loop from element `i` on, by induction on the number of elements left. -/
theorem sum_loop (m : Nat) : ∀ (i : Nat) (s : SimdState), s.pc = 1 → s.memory = memory →
    s.registers .rcx = base + BitVec.ofNat 64 (4 * i) → s.registers .rdx = BitVec.ofNat 64 i →
    i + m = ((s.registers .r8).setWidth 32).toNat →
    ∃ last, Steps simdSumI32 s last ∧ last.pc = 33 ∧ last.memory = memory ∧
      last.registers .rax = s.registers .rax + addedFrom memory base i m ∧
      last.reads = s.reads ++ readFrom base i m := by
  induction m using Nat.strongRecOn with
  | ind m ih =>
    intro i s hPc hMemory hBase hIndex hLength
    have hSmall : i + m < 2 ^ 32 := hLength ▸ ((s.registers .r8).setWidth 32).isLt
    have hLow : ((s.registers .rdx).setWidth 32).toNat = i := by
      rw [hIndex, BitVec.toNat_setWidth, BitVec.toNat_ofNat]
      omega
    have hBelow : ((s.registers .rdx).setWidth 32).ult ((s.registers .r8).setWidth 32) =
        decide (0 < m) := by
      rw [BitVec.ult, hLow, ← hLength]
      exact decide_eq_decide.mpr (by omega)
    have hLeft : ((s.registers .r8).setWidth 32 - (s.registers .rdx).setWidth 32).ult 4#32 =
        decide (m < 4) := by
      have hSub : ((s.registers .r8).setWidth 32 - (s.registers .rdx).setWidth 32).toNat = m := by
        rw [BitVec.toNat_sub, hLow, ← hLength]
        omega
      rw [BitVec.ult, hSub]
      rfl
    have hNext : ∀ k, base + BitVec.ofNat 64 (4 * i) + BitVec.ofNat 64 (4 * k) =
        base + BitVec.ofNat 64 (4 * (i + k)) := by
      intro k
      rw [BitVec.add_assoc, ← BitVec.ofNat_add, Nat.mul_add]
    rcases Nat.eq_zero_or_pos m with rfl | hPos
    · refine ⟨_, ⟨2, sum_round_done hPc (by rw [hBelow]; rfl)⟩, rfl, hMemory, ?_, ?_⟩
      · exact (BitVec.add_zero _).symm
      · exact (List.append_nil _).symm
    · rw [decide_eq_true hPos] at hBelow
      by_cases hFour : m < 4
      · obtain ⟨t, hRun, hPc', hBase', hIndex', hLength', hMemory', hReads', hSum'⟩ :=
          sum_round_scalar hPc hBelow (by rw [hLeft, decide_eq_true hFour])
        obtain ⟨last, hSteps, hEnd, hLast, hSum, hReads⟩ := ih (m - 1) (by omega) (i + 1) t hPc'
          (hMemory'.trans hMemory)
          (by rw [hBase', hBase]; exact hNext 1)
          (by rw [hIndex', hIndex]; exact (BitVec.ofNat_add i 1).symm)
          (by rw [hLength', ← hLength]; omega)
        refine ⟨last, Steps.trans ⟨13, hRun⟩ hSteps, hEnd, hLast, ?_, ?_⟩
        · rw [hSum, hSum', addedFrom_scalar i hPos hFour, hMemory, hBase, ← BitVec.add_assoc]
          rfl
        · rw [hReads, hReads', readFrom_scalar i hPos hFour, hBase, List.append_assoc]
          rfl
      · obtain ⟨t, hRun, hPc', hBase', hIndex', hLength', hMemory', hReads', hSum'⟩ :=
          sum_round_vector hPc hBelow (by rw [hLeft, decide_eq_false hFour])
        obtain ⟨k, rfl⟩ := Nat.exists_eq_add_of_le' (Nat.le_of_not_lt hFour)
        obtain ⟨last, hSteps, hEnd, hLast, hSum, hReads⟩ := ih k (by omega) (i + 4) t hPc'
          (hMemory'.trans hMemory)
          (by rw [hBase', hBase]; exact hNext 4)
          (by rw [hIndex', hIndex]; exact (BitVec.ofNat_add i 4).symm)
          (by rw [hLength', ← hLength]; omega)
        have hFirst : lanesAt s.memory (s.registers .rcx) 0 = element memory base i := by
          rw [hMemory, hBase]
          exact congrArg (word32 memory) (BitVec.add_zero _)
        have hSecond : lanesAt s.memory (s.registers .rcx) 1 = element memory base (i + 1) := by
          rw [hMemory, hBase]
          exact congrArg (word32 memory) (hNext 1)
        refine ⟨last, Steps.trans ⟨25, hRun⟩ hSteps, hEnd, hLast, ?_, ?_⟩
        · rw [hSum, hSum', hFirst, hSecond, addedFrom]
          simp only [wide, BitVec.add_assoc]
        · rw [hReads, hReads', hBase, List.append_assoc]
          rfl

theorem sum_kernel {s : SimdState} (hPc : s.pc = 0) (hReads : s.reads = []) :
    ∃ last, Halts simdSumI32 s last ∧ last.memory = s.memory ∧
      last.registers .rax = s.registers .rax +
        addedFrom s.memory (s.registers .rcx) 0 (s.low .r8).toNat ∧
      last.reads = readFrom (s.registers .rcx) 0 (s.low .r8).toNat := by
  have hStart : simdRun simdSumI32 1 s = { s.set .rdx 0 with pc := 1 } := by
    rw [simdRun, simdStep, hPc]
    show ({ s.set .rdx 0 with pc := s.pc + 1 } : SimdState) = _
    rw [hPc]
  obtain ⟨last, hSteps, hEnd, hMemory, hSum, hLast⟩ :=
    sum_loop (s.low .r8).toNat 0 { s.set .rdx 0 with pc := 1 } rfl rfl
      (BitVec.add_zero _).symm rfl (Nat.zero_add _)
  refine ⟨last, ⟨Steps.trans ⟨1, hStart⟩ hSteps, ?_⟩, hMemory, hSum, ?_⟩
  · rw [hEnd]
    rfl
  · rw [hLast]
    exact congrArg (· ++ _) hReads

end Loop

-- ---
-- Every element once
-- ---

section Elements

variable {memory : ByteMemory} {base : Word}

/-- What is added differs from the sum by the first halves of the groups of four less the second
halves. -/
theorem addedFrom_eq (m i : Nat) : addedFrom memory base i m =
    ∑ k ∈ Finset.range m, wide memory base (i + k) +
      ∑ k ∈ Finset.range (m / 4), (wide memory base (i + 4 * k) + wide memory base (i + 4 * k + 1) -
        (wide memory base (i + 4 * k + 2) + wide memory base (i + 4 * k + 3))) := by
  induction m using Nat.strongRecOn generalizing i with
  | ind m ih =>
    rcases Nat.lt_or_ge m 4 with hFour | hFour
    · have hNone : m / 4 = 0 := by omega
      rw [hNone, Finset.range_zero, Finset.sum_empty, add_zero]
      rcases Nat.eq_zero_or_pos m with rfl | hPos
      · rfl
      · have hQuads : (m - 1) / 4 = 0 := by omega
        rw [addedFrom_scalar i hPos hFour, ih (m - 1) (by omega), hQuads, Finset.range_zero,
          Finset.sum_empty, add_zero]
        obtain ⟨k, rfl⟩ := Nat.exists_eq_add_of_le' hPos
        rw [Finset.sum_range_succ', Nat.add_sub_cancel, add_comm]
        simp [Nat.add_assoc, Nat.add_comm 1]
    · obtain ⟨k, rfl⟩ := Nat.exists_eq_add_of_le' hFour
      have hQuads : (k + 4) / 4 = k / 4 + 1 := by omega
      have hHead : ∀ f : Nat → Word, ∑ j ∈ Finset.range (k + 4), f j =
          ∑ j ∈ Finset.range k, f (j + 4) + f 3 + f 2 + f 1 + f 0 := by
        intro f
        rw [Finset.sum_range_succ', Finset.sum_range_succ', Finset.sum_range_succ',
          Finset.sum_range_succ']
      have hShift : ∀ j, i + 4 + j = i + (j + 4) := fun j => by omega
      have hGroup : ∀ j, i + 4 * (j + 1) = i + (4 * j + 4) := fun j => by omega
      rw [addedFrom, ih k (by omega), hQuads, Finset.sum_range_succ' _ (k / 4), hHead]
      simp only [hShift, hGroup, Nat.add_zero, Nat.mul_zero]
      ring

theorem readFrom_within (m i : Nat) : ∀ read ∈ readFrom base i m, ∀ j < read.2,
    ∃ k < 4 * (i + m), read.1 + BitVec.ofNat 64 j = base + BitVec.ofNat 64 k := by
  induction m using Nat.strongRecOn generalizing i with
  | ind m ih =>
    have hHere : ∀ {j n : Nat}, j < 4 * n → n ≤ m → ∃ k < 4 * (i + m),
        base + BitVec.ofNat 64 (4 * i) + BitVec.ofNat 64 j = base + BitVec.ofNat 64 k :=
      fun {j n} hj hn => ⟨4 * i + j, by omega, by rw [BitVec.add_assoc, ← BitVec.ofNat_add]⟩
    intro read hMem j hj
    rcases Nat.eq_zero_or_pos m with rfl | hPos
    · cases hMem
    rcases Nat.lt_or_ge m 4 with hFour | hFour
    · rw [readFrom_scalar i hPos hFour] at hMem
      rcases List.mem_cons.mp hMem with rfl | hRest
      · exact hHere (n := 1) hj hPos
      · obtain ⟨k, hk, hSame⟩ := ih (m - 1) (by omega) (i + 1) read hRest j hj
        exact ⟨k, by omega, hSame⟩
    · obtain ⟨rest, rfl⟩ := Nat.exists_eq_add_of_le' hFour
      rcases List.mem_cons.mp hMem with rfl | hRest
      · exact hHere (n := 4) hj hFour
      · obtain ⟨k, hk, hSame⟩ := ih rest (by omega) (i + 4) read hRest j hj
        exact ⟨k, by omega, hSame⟩

end Elements

/-- **The sum kernel.** It adds every element once, and reads nothing else, if and only if the
length is not negative and the first two elements of the full groups of four have the sum that the
last two have. -/
theorem simd_sum_iff {s : SimdState} (hPc : s.pc = 0) (hReads : s.reads = []) :
    SumsElements s ↔ 0 ≤ (s.low .r8).toInt ∧ ∑ k ∈ Finset.range ((s.low .r8).toNat / 4),
        (wide s.memory (s.registers .rcx) (4 * k) + wide s.memory (s.registers .rcx) (4 * k + 1) -
          (wide s.memory (s.registers .rcx) (4 * k + 2) +
            wide s.memory (s.registers .rcx) (4 * k + 3))) = 0 := by
  obtain ⟨last, hHalts, hMemory, hSum, hLast⟩ := sum_kernel hPc hReads
  have hAdded := @addedFrom_eq s.memory (s.registers .rcx) (s.low .r8).toNat 0
  simp only [Nat.zero_add] at hAdded
  have hSign : 0 ≤ (s.low .r8).toInt ↔ (s.low .r8).toInt.toNat = (s.low .r8).toNat := by
    rw [BitVec.toInt_eq_toNat_cond]
    have := (s.low .r8).isLt
    split <;> omega
  constructor
  · rintro ⟨last', hHalts', hSum', -, hWithin⟩
    obtain rfl := hHalts.unique hHalts'
    have hNonneg : 0 ≤ (s.low .r8).toInt := by
      by_contra hNegative
      have hNone : (s.low .r8).toInt.toNat = 0 := by omega
      have hPos : 0 < (s.low .r8).toNat := by
        rw [BitVec.toInt_eq_toNat_cond] at hNegative
        split at hNegative <;> omega
      -- something is read, where nothing may be
      obtain ⟨first, rest, hFirst, hBytes⟩ : ∃ first rest,
          readFrom (s.registers .rcx) 0 (s.low .r8).toNat = first :: rest ∧ 0 < first.2 := by
        rcases Nat.lt_or_ge (s.low .r8).toNat 4 with hFour | hFour
        · exact ⟨_, _, readFrom_scalar 0 hPos hFour, Nat.zero_lt_succ 3⟩
        · obtain ⟨k, hk⟩ := Nat.exists_eq_add_of_le' hFour
          rw [hk]
          exact ⟨_, _, rfl, Nat.zero_lt_succ 15⟩
      rw [hLast, hFirst] at hWithin
      obtain ⟨k, hk, -⟩ := hWithin first List.mem_cons_self 0 hBytes
      omega
    refine ⟨hNonneg, ?_⟩
    rw [hSum, hSign.mp hNonneg, hAdded] at hSum'
    exact left_eq_add.mp (add_left_cancel hSum').symm
  · rintro ⟨hNonneg, hGroups⟩
    refine ⟨last, hHalts, ?_, hMemory, ?_⟩
    · rw [hSum, hAdded, hGroups, add_zero, hSign.mp hNonneg]
    · rw [hLast, hSign.mp hNonneg]
      intro read hMem j hj
      obtain ⟨k, hk, hSame⟩ := readFrom_within (s.low .r8).toNat 0 read hMem j hj
      exact ⟨k, by omega, hSame⟩

-- ---
-- Four elements
-- ---

/-- The elements at 4096 are `a`, `b`, `c` and `d`. -/
def fourElements (a b c d : BitVec 8) : ByteMemory := fun p =>
  if p = 4096 then a else if p = 4100 then b else if p = 4104 then c else if p = 4108 then d else 0

def sumStart (memory : ByteMemory) : SimdState where
  registers register := if register = .rcx then 4096 else if register = .r8 then 4 else 0
  lanes _ _ := 0
  memory
  flags := ⟨false, false, false⟩
  reads := []
  pc := 0

theorem simd_sum_iff_four : SumsElements (sumStart (fourElements 1 2 2 1)) :=
  (simd_sum_iff rfl rfl).mpr ⟨by decide, by decide⟩

/-- **The lanes that are lost.** Of 0, 0, 1 and 0 the kernel makes 0. -/
theorem last_lanes_lost : ¬ SumsElements (sumStart (fourElements 0 0 1 0)) := by
  rintro ⟨last, hHalts, hSum, -⟩
  obtain ⟨last', hHalts', -, hSum', -⟩ := sum_kernel (s := sumStart (fourElements 0 0 1 0)) rfl rfl
  obtain rfl := hHalts.unique hHalts'
  rw [hSum'] at hSum
  revert hSum
  decide

end Mettle.Codegen
