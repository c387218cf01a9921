import Mathlib.Order.Bounds.Basic
import Mettle.Codegen.SimdMachine

/-!
# Mettle — the vector min/max kernel

The code of `IR_OP_SIMD_MINMAX_I32`. Its vector part compares 32-bit lanes as signed numbers. What
comes from an element of the tail, or from the lanes, is a word that is cleared above the 32 bits,
and is compared as a signed 64-bit word with the minimum and the maximum so far: a negative element
counts as a large one. The tail also uses `r14`, in which a promoted variable may be.
-/

namespace Mettle.Codegen

open Mettle.Lib List BitVec

/-- `code_generator_binary_emit_simd_minmax_i32`, between the loads of its operands and the stores
of its results: `r10` is the minimum, `r11` the maximum, `rcx` the base and `edx` the length. -/
def simdMinMaxI32 : List Simd :=
  [.mov32 .r8 .rdx, .shl32 .r8 2, .add .r8 .rcx, .addImm .rcx 4,
   .movdToXmm 4 .r10, .pshufd 4 4 0, .movdToXmm 5 .r11, .pshufd 5 5 0,
   -- loop_top
   .cmp .rcx .r8, .jump .aboveEqual 36,
   .mov .r9 .r8, .sub .r9 .rcx, .cmpImm32 .r9 64, .jump .aboveEqual 15, .jump .always 29,
   -- j_vec
   .movdquLoad 0 .rcx 0, .packed .pminsd 4 0, .packed .pmaxsd 5 0,
   .movdquLoad 0 .rcx 16, .packed .pminsd 4 0, .packed .pmaxsd 5 0,
   .movdquLoad 0 .rcx 32, .packed .pminsd 4 0, .packed .pmaxsd 5 0,
   .movdquLoad 0 .rcx 48, .packed .pminsd 4 0, .packed .pmaxsd 5 0,
   .addImm .rcx 64, .jump .always 8,
   -- j_scalar
   .load32 .r14 .rcx, .cmp .r14 .r10, .cmov .less .r10 .r14, .cmp .r14 .r11,
   .cmov .greater .r11 .r14, .addImm .rcx 4, .jump .always 8,
   -- j_done: wcs_horizontal_pminsd_to_reg and wcs_horizontal_pmaxsd_to_reg
   .pshufd 1 4 0xEE, .packed .pminsd 4 1, .pshufd 1 4 1, .packed .pminsd 4 1,
   .movdFromXmm .r9 4, .cmp .r9 .r10, .cmov .less .r10 .r9,
   .pshufd 1 5 0xEE, .packed .pmaxsd 5 1, .pshufd 1 5 1, .packed .pmaxsd 5 1,
   .movdFromXmm .r9 5, .cmp .r9 .r11, .cmov .greater .r11 .r9]

-- ---
-- The rounds
-- ---

def lesser (a b : Word) : Word := if b.slt a then b else a

def larger (a b : Word) : Word := if !b.slt a && !(b == a) then b else a

def across (pick : BitVec 32 → BitVec 32 → BitVec 32) (lanes : Lanes) : BitVec 32 :=
  pick (pick (lanes 0) (lanes 2)) (pick (lanes 1) (lanes 3))

def pickFour (pick : BitVec 32 → BitVec 32 → BitVec 32) (lanes a b c d : Lanes) : Lanes :=
  fun lane => pick (pick (pick (pick (lanes lane) (a lane)) (b lane)) (c lane)) (d lane)

section Rounds

variable {s : SimdState}

theorem minmax_start (hPc : s.pc = 0) :
    ∃ t, simdRun simdMinMaxI32 8 s = t ∧ t.pc = 8 ∧ t.memory = s.memory ∧ t.reads = s.reads ∧
      t.registers .rcx = s.registers .rcx + 4 ∧
      t.registers .r8 = (s.low .rdx <<< 2).setWidth 64 + s.registers .rcx ∧
      t.registers .r10 = s.registers .r10 ∧ t.registers .r11 = s.registers .r11 ∧
      t.lanes 4 = (fun _ => s.low .r10) ∧ t.lanes 5 = (fun _ => s.low .r11) ∧
      t.registers .r14 = s.registers .r14 := by
  obtain ⟨registers, lanes, memory, flags, reads, pc⟩ := s
  obtain rfl : pc = 0 := hPc
  refine ⟨_, rfl, ?_⟩
  simp [simdMinMaxI32, shuffled, funext_iff]

section

variable (hPc : s.pc = 8) (hBelow : (s.registers .rcx).ult (s.registers .r8) = true)
include hPc hBelow

theorem minmax_round_vector
    (hLeft : ((s.registers .r8 - s.registers .rcx).setWidth 32).ult 64#32 = false) :
    ∃ t, simdRun simdMinMaxI32 20 s = t ∧ t.pc = 8 ∧ t.memory = s.memory ∧
      t.registers .rcx = s.registers .rcx + 64 ∧ t.registers .r8 = s.registers .r8 ∧
      t.registers .r10 = s.registers .r10 ∧ t.registers .r11 = s.registers .r11 ∧
      t.lanes 4 = pickFour minSigned (s.lanes 4) (lanesAt s.memory (s.registers .rcx))
        (lanesAt s.memory (s.registers .rcx + 16)) (lanesAt s.memory (s.registers .rcx + 32))
        (lanesAt s.memory (s.registers .rcx + 48)) ∧
      t.lanes 5 = pickFour maxSigned (s.lanes 5) (lanesAt s.memory (s.registers .rcx))
        (lanesAt s.memory (s.registers .rcx + 16)) (lanesAt s.memory (s.registers .rcx + 32))
        (lanesAt s.memory (s.registers .rcx + 48)) ∧
      t.registers .r14 = s.registers .r14 ∧
      t.reads = s.reads ++ [(s.registers .rcx, 16), (s.registers .rcx + 16, 16),
        (s.registers .rcx + 32, 16), (s.registers .rcx + 48, 16)] := by
  obtain ⟨registers, lanes, memory, flags, reads, pc⟩ := s
  obtain rfl : pc = 8 := hPc
  have h : (registers .rcx).ult (registers .r8) = true := hBelow
  have h' : ((registers .r8 - registers .rcx).setWidth 32).ult 64#32 = false := hLeft
  refine ⟨_, rfl, ?_⟩
  simp [simdMinMaxI32, PackedOp.apply, h, h']
  exact ⟨rfl, rfl⟩

theorem minmax_round_scalar
    (hLeft : ((s.registers .r8 - s.registers .rcx).setWidth 32).ult 64#32 = true) :
    ∃ t, simdRun simdMinMaxI32 14 s = t ∧ t.pc = 8 ∧ t.memory = s.memory ∧
      t.registers .rcx = s.registers .rcx + 4 ∧ t.registers .r8 = s.registers .r8 ∧
      t.registers .r10 =
        lesser (s.registers .r10) ((word32 s.memory (s.registers .rcx)).setWidth 64) ∧
      t.registers .r11 =
        larger (s.registers .r11) ((word32 s.memory (s.registers .rcx)).setWidth 64) ∧
      t.lanes = s.lanes ∧
      t.registers .r14 = (word32 s.memory (s.registers .rcx)).setWidth 64 ∧
      t.reads = s.reads ++ [(s.registers .rcx, 4)] := by
  obtain ⟨registers, lanes, memory, flags, reads, pc⟩ := s
  obtain rfl : pc = 8 := hPc
  have h : (registers .rcx).ult (registers .r8) = true := hBelow
  have h' : ((registers .r8 - registers .rcx).setWidth 32).ult 64#32 = true := hLeft
  refine ⟨_, rfl, ?_⟩
  simp [simdMinMaxI32, lesser, larger, h, h']

end

theorem minmax_end (hPc : s.pc = 8) (hBelow : (s.registers .rcx).ult (s.registers .r8) = false) :
    ∃ t, simdRun simdMinMaxI32 16 s = t ∧ t.pc = 50 ∧ t.registers .r10 =
        lesser (s.registers .r10) ((across minSigned (s.lanes 4)).setWidth 64) ∧
      t.registers .r11 = larger (s.registers .r11) ((across maxSigned (s.lanes 5)).setWidth 64) ∧
      t.registers .r14 = s.registers .r14 ∧ t.reads = s.reads := by
  obtain ⟨registers, lanes, memory, flags, reads, pc⟩ := s
  obtain rfl : pc = 8 := hPc
  have h : (registers .rcx).ult (registers .r8) = false := hBelow
  refine ⟨_, rfl, ?_⟩
  simp [simdMinMaxI32, PackedOp.apply, shuffled, across, lesser, larger, h]
  rfl

end Rounds

-- ---
-- The lanes
-- ---

/-- `pick` takes one of two words, to which both stand in the relation `r`. -/
structure Picks (r : BitVec 32 → BitVec 32 → Prop)
    (pick : BitVec 32 → BitVec 32 → BitVec 32) : Prop where
  choice : ∀ a b, pick a b = a ∨ pick a b = b
  left : ∀ a b, r (pick a b) a
  right : ∀ a b, r (pick a b) b
  trans : ∀ a b c, r a b → r b c → r a c

theorem minSigned_picks : Picks (fun a b => a.toInt ≤ b.toInt) minSigned where
  choice a b := by rw [minSigned]; split <;> simp
  left a b := by rw [minSigned]; split <;> simp_all [slt_iff_toInt_lt]; omega
  right a b := by rw [minSigned]; split <;> simp_all [slt_iff_toInt_lt]
  trans a b c := Int.le_trans

theorem maxSigned_picks : Picks (fun a b => b.toInt ≤ a.toInt) maxSigned where
  choice a b := by rw [maxSigned]; split <;> simp
  left a b := by rw [maxSigned]; split <;> simp_all [slt_iff_toInt_lt]; omega
  right a b := by rw [maxSigned]; split <;> simp_all [slt_iff_toInt_lt]
  trans a b c h h' := Int.le_trans h' h

/-- The lanes are some of the first `n` words of `x`, and every one of these has a lane that stands
in the relation to it. -/
def Extreme (r : BitVec 32 → BitVec 32 → Prop) (lanes : Lanes) (x : Nat → BitVec 32) (n : Nat) :
    Prop :=
  (∀ lane, ∃ j < n, lanes lane = x j) ∧ ∀ j < n, ∃ lane, r (lanes lane) (x j)

section Lanes

variable {r : BitVec 32 → BitVec 32 → Prop} {pick : BitVec 32 → BitVec 32 → BitVec 32}
  {x : Nat → BitVec 32} {lanes : Lanes} {n : Nat}

theorem Extreme.more (h : Extreme r lanes x n) (hPick : Picks r pick) :
    Extreme r (fun lane => pick (lanes lane) (x (n + lane))) x (n + 4) := by
  refine ⟨fun lane => ?_, fun j hj => ?_⟩
  · rcases hPick.choice (lanes lane) (x (n + lane)) with hSame | hSame
    · obtain ⟨j, hj, hLane⟩ := h.1 lane
      exact ⟨j, by omega, hSame.trans hLane⟩
    · exact ⟨n + lane, by omega, hSame⟩
  · rcases Nat.lt_or_ge j n with hOld | hNew
    · obtain ⟨lane, hLane⟩ := h.2 j hOld
      exact ⟨lane, hPick.trans _ _ _ (hPick.left _ _) hLane⟩
    · obtain ⟨k, rfl⟩ := Nat.exists_eq_add_of_le hNew
      exact ⟨⟨k, by omega⟩, hPick.right _ _⟩

theorem Extreme.across (h : Extreme r lanes x n) (hPick : Picks r pick) :
    (∃ j < n, across pick lanes = x j) ∧ ∀ j < n, r (across pick lanes) (x j) := by
  have hLane : ∀ lane, r (Codegen.across pick lanes) (lanes lane) := by
    intro lane
    have hLeft := hPick.left (pick (lanes 0) (lanes 2)) (pick (lanes 1) (lanes 3))
    have hRight := hPick.right (pick (lanes 0) (lanes 2)) (pick (lanes 1) (lanes 3))
    match lane with
    | 0 => exact hPick.trans _ _ _ hLeft (hPick.left _ _)
    | 1 => exact hPick.trans _ _ _ hRight (hPick.left _ _)
    | 2 => exact hPick.trans _ _ _ hLeft (hPick.right _ _)
    | 3 => exact hPick.trans _ _ _ hRight (hPick.right _ _)
  refine ⟨?_, fun j hj => ?_⟩
  · obtain ⟨lane, hSame⟩ : ∃ lane, Codegen.across pick lanes = lanes lane := by
      rcases hPick.choice (pick (lanes 0) (lanes 2)) (pick (lanes 1) (lanes 3)) with h' | h'
      · exact (hPick.choice (lanes 0) (lanes 2)).elim (fun h => ⟨0, h'.trans h⟩)
          fun h => ⟨2, h'.trans h⟩
      · exact (hPick.choice (lanes 1) (lanes 3)).elim (fun h => ⟨1, h'.trans h⟩)
          fun h => ⟨3, h'.trans h⟩
    exact hSame ▸ h.1 lane
  · obtain ⟨lane, hr⟩ := h.2 j hj
    exact hPick.trans _ _ _ (hLane lane) hr

end Lanes

-- ---
-- The loop
-- ---

def SimdState.array (s : SimdState) (j : Nat) : BitVec 32 :=
  element s.memory (s.registers .rcx) j

def arrayLength (s : SimdState) : Nat := max (s.low .rdx).toInt.toNat 1

def arrayEnd (s : SimdState) : Word := (s.low .rdx <<< 2).setWidth 64 + s.registers .rcx

/-- The number of elements the kernel takes: the length modulo `2 ^ 30`, but at least the first one,
and only this one where the address of the end wraps. -/
def scanned (s : SimdState) : Nat :=
  if (s.registers .rcx).toNat + 4 * ((s.low .rdx).toNat % 2 ^ 30) < 2 ^ 64 then
    max ((s.low .rdx).toNat % 2 ^ 30) 1
  else 1

/-- The first word, and the words behind element `v` and before element `i` as the tail compares
them. -/
def tailWords (s : SimdState) (v i : Nat) : Set Int :=
  insert (s.array 0).toInt {w | ∃ j, v < j ∧ j < i ∧ w = (s.array j).toNat}

/-- The loop stands at element `i`, with the elements up to `v` in the lanes. -/
structure MinMaxAt (s : SimdState) (v i : Nat) (t : SimdState) : Prop where
  steps : Steps simdMinMaxI32 s t
  pc : t.pc = 8
  memory : t.memory = s.memory
  next : t.registers .rcx = s.registers .rcx + BitVec.ofNat 64 (4 * i)
  last : t.registers .r8 = arrayEnd s
  low : Extreme (fun a b => a.toInt ≤ b.toInt) (t.lanes 4) s.array (v + 1)
  high : Extreme (fun a b => b.toInt ≤ a.toInt) (t.lanes 5) s.array (v + 1)
  least : IsLeast (tailWords s v i) (t.registers .r10).toInt
  greatest : IsGreatest (tailWords s v i) (t.registers .r11).toInt
  r14 : t.registers .r14 = if i = v + 1 then s.registers .r14 else (s.array (i - 1)).setWidth 64
  within : ∀ read ∈ t.reads, ∃ j c, j + c ≤ i ∧
    read = (s.registers .rcx + BitVec.ofNat 64 (4 * j), 4 * c)
  past : 1 < i → ∃ read ∈ t.reads, read.1 = s.registers .rcx + 4 ∧ 0 < read.2

section Loop

variable {s t : SimdState} {v i : Nat}

theorem scanned_cases (s : SimdState) :
    (s.registers .rcx).toNat + 4 * ((s.low .rdx).toNat % 2 ^ 30) < 2 ^ 64 ∧
        scanned s = max ((s.low .rdx).toNat % 2 ^ 30) 1 ∨
      2 ^ 64 ≤ (s.registers .rcx).toNat + 4 * ((s.low .rdx).toNat % 2 ^ 30) ∧ scanned s = 1 := by
  rw [scanned]
  split
  · exact .inl ⟨‹_›, rfl⟩
  · exact .inr ⟨Nat.le_of_not_lt ‹_›, rfl⟩

theorem arrayEnd_toNat : (arrayEnd s).toNat =
    ((s.registers .rcx).toNat + 4 * ((s.low .rdx).toNat % 2 ^ 30)) % 2 ^ 64 := by
  rw [arrayEnd, toNat_add, toNat_setWidth, toNat_shiftLeft, Nat.shiftLeft_eq]
  omega

theorem arrayEnd_below (hBase : (s.registers .rcx).toNat + 4 < 2 ^ 64) (hPos : 1 ≤ i)
    (hi : i ≤ scanned s) :
    (s.registers .rcx + BitVec.ofNat 64 (4 * i)).ult (arrayEnd s) = decide (i < scanned s) := by
  have hWord := (s.registers .rcx).isLt
  rw [BitVec.ult, arrayEnd_toNat, BitVec.toNat_add, BitVec.toNat_ofNat, decide_eq_decide]
  rcases scanned_cases s with ⟨hFits, hCount⟩ | ⟨hWraps, hCount⟩ <;> omega

theorem arrayEnd_left (hi : i < scanned s) (hPos : 1 ≤ i) :
    ((arrayEnd s - (s.registers .rcx + BitVec.ofNat 64 (4 * i))).setWidth 32).ult 64#32 =
      decide (scanned s < i + 16) := by
  have hWord := (s.registers .rcx).isLt
  rw [BitVec.ult, BitVec.toNat_setWidth, BitVec.toNat_sub, arrayEnd_toNat, BitVec.toNat_add,
    BitVec.toNat_ofNat, decide_eq_decide, show (64#32).toNat = 64 from rfl]
  rcases scanned_cases s with ⟨hFits, hCount⟩ | ⟨hWraps, hCount⟩ <;> omega

theorem setWidth_toInt (x : BitVec 32) : (x.setWidth 64).toInt = x.toNat := by
  have := x.isLt
  rw [toInt_eq_toNat_cond, toNat_setWidth]
  split <;> omega

theorem signExtend_low (x : BitVec 32) : (x.signExtend 64).setWidth 32 = x := by
  apply eq_of_getLsbD_eq
  intro i hi
  have hWide : i < 64 := by omega
  simp only [getLsbD_setWidth, getLsbD_signExtend, hi, hWide, decide_true, Bool.true_and, if_true]

theorem lesser_toInt (a : Word) (x : BitVec 32) :
    (lesser a (x.setWidth 64)).toInt = min (x.toNat : Int) a.toInt := by
  rw [lesser, ← setWidth_toInt]
  split <;> rename_i h <;> rw [slt_iff_toInt_lt] at h <;> omega

theorem larger_toInt (a : Word) (x : BitVec 32) :
    (larger a (x.setWidth 64)).toInt = max (x.toNat : Int) a.toInt := by
  rw [larger, ← setWidth_toInt]
  split <;> rename_i h <;>
    simp only [Bool.and_eq_true, Bool.not_eq_true', beq_eq_false_iff_ne, ne_eq,
      slt_eq_decide, decide_eq_false_iff_not, ← toInt_inj] at h <;> omega

theorem tailWords_none (s : SimdState) (v : Nat) : tailWords s v (v + 1) = {(s.array 0).toInt} := by
  ext w
  simp only [tailWords, Set.mem_insert_iff, Set.mem_ofPred_eq, Set.mem_singleton_iff]
  exact ⟨fun h => h.elim id fun ⟨j, h, h', _⟩ => by omega, .inl⟩

theorem tailWords_succ (hi : v < i) :
    tailWords s v (i + 1) = insert ((s.array i).toNat : Int) (tailWords s v i) := by
  ext w
  simp only [tailWords, Set.mem_insert_iff, Set.mem_ofPred_eq]
  constructor
  · rintro (h | ⟨j, hv, hj, h⟩)
    · exact .inr (.inl h)
    · rcases Nat.lt_or_eq_of_le (Nat.le_of_lt_succ hj) with hj | rfl
      · exact .inr (.inr ⟨j, hv, hj, h⟩)
      · exact .inl h
  · rintro (h | h | ⟨j, hv, hj, h⟩)
    · exact .inr ⟨i, hi, Nat.lt_succ_self i, h⟩
    · exact .inl h
    · exact .inr ⟨j, hv, Nat.lt_succ_of_lt hj, h⟩

theorem MinMaxAt.start (hPc : s.pc = 0) (hReads : s.reads = [])
    (hMin : s.registers .r10 = (s.array 0).signExtend 64)
    (hMax : s.registers .r11 = (s.array 0).signExtend 64) : ∃ t, MinMaxAt s 0 1 t := by
  obtain ⟨t, hRun, hPc', hMemory, hReads', hNext, hLast, h10, h11, h4, h5, h14⟩ :=
    minmax_start hPc
  have hWord : ((s.array 0).signExtend 64).toInt = (s.array 0).toInt :=
    toInt_signExtend_of_le (by decide)
  have hLane : ∀ {register : GpRegister}, s.registers register = (s.array 0).signExtend 64 →
      s.low register = s.array 0 := fun h => by
    rw [SimdState.low, h, signExtend_low]
  refine ⟨t, ⟨8, hRun⟩, hPc', hMemory, hNext, hLast, ?_, ?_, ?_, ?_, ?_, ?_, ?_⟩
  · rw [h4, hLane hMin]
    exact ⟨fun _ => ⟨0, by omega, rfl⟩, fun j hj => ⟨0, by
      obtain rfl : j = 0 := by omega
      exact Int.le_refl _⟩⟩
  · rw [h5, hLane hMax]
    exact ⟨fun _ => ⟨0, by omega, rfl⟩, fun j hj => ⟨0, by
      obtain rfl : j = 0 := by omega
      exact Int.le_refl _⟩⟩
  · rw [tailWords_none, h10, hMin, hWord]
    exact isLeast_singleton
  · rw [tailWords_none, h11, hMax, hWord]
    exact isGreatest_singleton
  · rw [if_pos rfl, h14]
  · rw [hReads', hReads]
    exact fun _ h => (not_mem_nil h).elim
  · exact fun h => (Nat.lt_irrefl 1 h).elim

theorem lanesAt_array (hMemory : t.memory = s.memory) (c : Nat) :
    lanesAt t.memory (s.registers .rcx + BitVec.ofNat 64 (4 * i) + BitVec.ofNat 64 (4 * c)) =
      fun lane : Fin 4 => s.array (i + c + lane) := by
  funext lane
  rw [lanesAt, hMemory, BitVec.add_assoc, BitVec.add_assoc, ← BitVec.ofNat_add, ← BitVec.ofNat_add,
    SimdState.array, element]
  congr 3
  omega

theorem MinMaxAt.vector (h : MinMaxAt s v (v + 1) t)
    (hBase : (s.registers .rcx).toNat + 4 < 2 ^ 64) (hLeft : v + 17 ≤ scanned s) :
    ∃ t', MinMaxAt s (v + 16) (v + 17) t' := by
  obtain ⟨t', hRun, hPc, hMemory, hNext, hLast, h10, h11, h4, h5, h14, hReads⟩ :=
    minmax_round_vector h.pc
      (by rw [h.next, h.last, arrayEnd_below hBase (by omega) (by omega)]; simp; omega)
      (by rw [h.next, h.last, arrayEnd_left (by omega) (by omega)]; simp; omega)
  have hLanes := fun c => lanesAt_array (i := v + 1) h.memory c
  have hFirst := hLanes 0
  rw [BitVec.add_zero] at hFirst
  rw [h.next, hFirst, show (16 : Word) = BitVec.ofNat 64 (4 * 4) from rfl,
    show (32 : Word) = BitVec.ofNat 64 (4 * 8) from rfl,
    show (48 : Word) = BitVec.ofNat 64 (4 * 12) from rfl, hLanes, hLanes, hLanes] at h4 h5
  refine ⟨t', h.steps.trans ⟨20, hRun⟩, hPc, hMemory.trans h.memory, ?_, hLast.trans h.last,
    ?_, ?_, ?_, ?_, ?_, ?_, fun _ => ?_⟩
  · rw [hNext, h.next, BitVec.add_assoc]
    exact congrArg _ ((BitVec.ofNat_add _ 64).symm.trans (congrArg _ (by omega)))
  · rw [h4]
    exact (((h.low.more minSigned_picks).more minSigned_picks).more minSigned_picks).more
      minSigned_picks
  · rw [h5]
    exact (((h.high.more maxSigned_picks).more maxSigned_picks).more maxSigned_picks).more
      maxSigned_picks
  · rw [tailWords_none, ← tailWords_none s v, h10]
    exact h.least
  · rw [tailWords_none, ← tailWords_none s v, h11]
    exact h.greatest
  · rw [if_pos rfl, h14, h.r14, if_pos rfl]
  · intro read hRead
    rw [hReads, h.next, List.mem_append] at hRead
    rcases hRead with hOld | hNew
    · obtain ⟨j, c, hj, rfl⟩ := h.within read hOld
      exact ⟨j, c, by omega, rfl⟩
    · -- one of the four vectors
      obtain ⟨c, hc, rfl⟩ : ∃ c < 4, read = (s.registers .rcx + BitVec.ofNat 64 (4 * (v + 1)) +
          BitVec.ofNat 64 (4 * (4 * c)), 16) := by
        simp only [List.mem_cons, List.not_mem_nil, or_false] at hNew
        rcases hNew with rfl | rfl | rfl | rfl
        · exact ⟨0, by omega, by rw [BitVec.add_zero]⟩
        · exact ⟨1, by omega, rfl⟩
        · exact ⟨2, by omega, rfl⟩
        · exact ⟨3, by omega, rfl⟩
      exact ⟨v + 1 + 4 * c, 4, by omega, by
        rw [BitVec.add_assoc, ← BitVec.ofNat_add, ← Nat.mul_add]⟩
  · rcases Nat.eq_zero_or_pos v with rfl | hPos
    · exact ⟨_, hReads ▸ List.mem_append_right _ List.mem_cons_self, h.next, Nat.zero_lt_succ 15⟩
    · obtain ⟨read, hRead, hWhere⟩ := h.past (by omega)
      exact ⟨read, hReads ▸ List.mem_append_left _ hRead, hWhere⟩

theorem MinMaxAt.scalar (h : MinMaxAt s v i t) (hv : v < i)
    (hBase : (s.registers .rcx).toNat + 4 < 2 ^ 64) (hi : i < scanned s)
    (hLeft : scanned s < i + 16) : ∃ t', MinMaxAt s v (i + 1) t' := by
  obtain ⟨t', hRun, hPc, hMemory, hNext, hLast, h10, h11, hLanes, h14, hReads⟩ :=
    minmax_round_scalar h.pc
      (by rw [h.next, h.last, arrayEnd_below hBase (by omega) (by omega), decide_eq_true hi])
      (by rw [h.next, h.last, arrayEnd_left hi (by omega), decide_eq_true hLeft])
  have hElement : word32 t.memory (t.registers .rcx) = s.array i := by
    rw [h.memory, h.next]
    rfl
  rw [hElement] at h10 h11 h14
  refine ⟨t', h.steps.trans ⟨14, hRun⟩, hPc, hMemory.trans h.memory, ?_, hLast.trans h.last,
    hLanes ▸ h.low, hLanes ▸ h.high, ?_, ?_, ?_, ?_, fun _ => ?_⟩
  · rw [hNext, h.next, BitVec.add_assoc]
    exact congrArg _ (ofNat_add _ 4).symm
  · rw [tailWords_succ hv, h10, lesser_toInt]
    exact h.least.insert _
  · rw [tailWords_succ hv, h11, larger_toInt]
    exact h.greatest.insert _
  · rw [if_neg (by omega), h14, Nat.add_sub_cancel]
  · intro read hRead
    rw [hReads, h.next, mem_append, mem_singleton] at hRead
    rcases hRead with hOld | rfl
    · obtain ⟨j, c, hj, rfl⟩ := h.within read hOld
      exact ⟨j, c, by omega, rfl⟩
    · exact ⟨i, 1, Nat.le_refl _, rfl⟩
  · by_cases hFirst : i = 1
    · subst hFirst
      exact ⟨_, hReads ▸ mem_append_right _ mem_cons_self, h.next, Nat.zero_lt_succ 3⟩
    · obtain ⟨read, hRead, hWhere⟩ := h.past (by omega)
      exact ⟨read, hReads ▸ mem_append_left _ hRead, hWhere⟩

theorem MinMaxAt.exists_last (h : MinMaxAt s 0 1 t)
    (hBase : (s.registers .rcx).toNat + 4 < 2 ^ 64) :
    ∃ t, MinMaxAt s (16 * ((scanned s - 1) / 16)) (scanned s) t := by
  have hPos : 1 ≤ scanned s := by
    rcases scanned_cases s with h | h <;> omega
  have hVector : ∀ q, 16 * q + 1 ≤ scanned s → ∃ t, MinMaxAt s (16 * q) (16 * q + 1) t := by
    intro q hq
    induction q with
    | zero => exact ⟨t, h⟩
    | succ q ih =>
      obtain ⟨t, ht⟩ := ih (by omega)
      exact ht.vector hBase (by omega)
  have hTail : ∀ k, 16 * ((scanned s - 1) / 16) + 1 + k ≤ scanned s →
      ∃ t, MinMaxAt s (16 * ((scanned s - 1) / 16)) (16 * ((scanned s - 1) / 16) + 1 + k) t := by
    intro k hk
    induction k with
    | zero => exact hVector _ (by omega)
    | succ k ih =>
      obtain ⟨t, ht⟩ := ih (by omega)
      exact ht.scalar (by omega) hBase (by omega) (by omega)
  obtain ⟨t, ht⟩ := hTail ((scanned s - 1) % 16) (by omega)
  have hAll : 16 * ((scanned s - 1) / 16) + 1 + (scanned s - 1) % 16 = scanned s := by omega
  rw [hAll] at ht
  exact ⟨t, ht⟩

end Loop

-- ---
-- The extrema
-- ---

/-- `promotion_registers` of `code_generator_binary_promote_hot_symbols`: where promoted variables
are. -/
def promotionRegisters : List GpRegister := [.r12, .r13, .r14, .r15, .rbx, .rsi, .rdi]

/-- What an extremum is stored to: a slot or a register of 64 bits, or a global `int32`. -/
inductive ExtremumHome
  | wide
  | int32
  deriving DecidableEq

/-- The number that a variable has once the word is stored to it. -/
def ExtremumHome.number : ExtremumHome → Word → Int
  | .wide, w => w.toInt
  | .int32, w => (w.setWidth 32).toInt

/-- The kernel has ended with the smallest and the largest number of the array for the variables
that it stores to, has read nothing else and has kept the registers of promoted variables. -/
def FindsExtrema (minHome maxHome : ExtremumHome) (s : SimdState) : Prop :=
  ∃ last, Halts simdMinMaxI32 s last ∧
    IsLeast {w | ∃ i < arrayLength s, w = (s.array i).toInt} (minHome.number (last.registers .r10)) ∧
    IsGreatest {w | ∃ i < arrayLength s, w = (s.array i).toInt}
      (maxHome.number (last.registers .r11)) ∧
    (∀ read ∈ last.reads, ∀ b < read.2, ∃ k < 4 * arrayLength s,
      read.1 + BitVec.ofNat 64 b = s.registers .rcx + BitVec.ofNat 64 k) ∧
    ∀ register ∈ promotionRegisters, last.registers register = s.registers register

def vectorLast (s : SimdState) : Nat := 16 * ((scanned s - 1) / 16)

/-- What the length, the elements and `r14` must be like: an element that is scanned is the smallest
one, and one the largest; a negative one is not smaller than the first; one of the vector part is
not negative and none of the tail is, or the maximum is stored to 32 bits and all are negative. -/
structure Ordered (maxHome : ExtremumHome) (s : SimdState) : Prop where
  within : scanned s ≤ arrayLength s
  least : ∃ j < scanned s, ∀ i < arrayLength s, (s.array j).toInt ≤ (s.array i).toInt
  greatest : ∃ j < scanned s, ∀ i < arrayLength s, (s.array i).toInt ≤ (s.array j).toInt
  negatives : ∀ i < scanned s, 0 ≤ (s.array i).toInt ∨ (s.array 0).toInt ≤ (s.array i).toInt
  signs : (maxHome = .int32 ∧ ∀ i < scanned s, (s.array i).toInt < 0) ∨
    (∀ i < scanned s, vectorLast s < i → 0 ≤ (s.array i).toInt) ∧
      ∃ i ≤ vectorLast s, 0 ≤ (s.array i).toInt
  r14 : scanned s = vectorLast s + 1 ∨ s.registers .r14 = (s.array (scanned s - 1)).setWidth 64

section Extrema

variable {s t : SimdState}

theorem toInt_cases (x : BitVec 32) :
    x.toNat < 2 ^ 31 ∧ x.toInt = x.toNat ∨ 2 ^ 31 ≤ x.toNat ∧ x.toInt = x.toNat - 2 ^ 32 := by
  have := x.isLt
  rw [toInt_eq_toNat_cond]
  split <;> omega

/-- The word that a reduction leaves is an element that is cleared above its 32 bits, or the first
one, which has its sign. -/
theorem low_of_tail {v n : Nat} {w : Word} {m : BitVec 32} (hm : ∃ j < v + 1, m = s.array j)
    (hv : v < n) (h : w.toInt ∈ insert (m.toNat : Int) (tailWords s v n)) :
    ∃ j < n, w.setWidth 32 = s.array j ∧ (w.toInt = (s.array j).toNat ∨
      j = 0 ∧ w.toInt = (s.array 0).toInt) := by
  have hWide : ∀ j, w.toInt = (s.array j).toNat → w.setWidth 32 = s.array j := by
    intro j h
    rw [← setWidth_toInt] at h
    rw [eq_of_toInt_eq h, setWidth_setWidth_of_le _ (by decide), setWidth_eq]
  rcases h with h | h | ⟨j, -, hj, h⟩
  · obtain ⟨j, hj, rfl⟩ := hm
    exact ⟨j, by omega, hWide j h, .inl h⟩
  · refine ⟨0, by omega, ?_, .inr ⟨rfl, h⟩⟩
    rw [← toInt_signExtend_of_le (show 32 ≤ 64 by decide)] at h
    rw [eq_of_toInt_eq h, signExtend_low]
  · exact ⟨j, hj, hWide j h, .inl h⟩

section Value

variable {v n l : Nat} {w : Word} {m : BitVec 32} {home : ExtremumHome}

theorem least_iff (hv : v < n) (hl : n ≤ l) (hm : ∃ j < v + 1, m = s.array j)
    (hAll : ∀ j < v + 1, m.toInt ≤ (s.array j).toInt)
    (hLeast : IsLeast (insert (m.toNat : Int) (tailWords s v n)) w.toInt) :
    IsLeast {x | ∃ i < l, x = (s.array i).toInt} (home.number w) ↔
      (∃ j < n, ∀ i < l, (s.array j).toInt ≤ (s.array i).toInt) ∧
      ∀ i < n, 0 ≤ (s.array i).toInt ∨ (s.array 0).toInt ≤ (s.array i).toInt := by
  obtain ⟨j, hj, hLow, hValue⟩ := low_of_tail hm hv hLeast.1
  have hFirst : w.toInt ≤ (s.array 0).toInt := hLeast.2 (.inr (.inl rfl))
  have hSign := toInt_cases (s.array j)
  -- the word is below `2 ^ 31`, so that it is the same number in 32 bits
  have hSame : home.number w = w.toInt := by
    cases home with
    | wide => rfl
    | int32 =>
      rw [ExtremumHome.number, hLow]
      rcases hValue with h | ⟨rfl, h⟩
      · have := toInt_cases (s.array 0)
        omega
      · exact h.symm
  rw [hSame]
  constructor
  · rintro ⟨-, hBelow⟩
    refine ⟨⟨j, hj, fun i hi => ?_⟩, fun i hi => ?_⟩
    · have hi' : w.toInt ≤ (s.array i).toInt := hBelow ⟨i, hi, rfl⟩
      rcases hValue with h | ⟨rfl, h⟩ <;> omega
    · have hi' : w.toInt ≤ (s.array i).toInt := hBelow ⟨i, by omega, rfl⟩
      rcases hValue with h | ⟨-, h⟩
      · exact .inl (by omega)
      · exact .inr (by omega)
  · rintro ⟨⟨k, hk, hTo⟩, hNegative⟩
    refine ⟨⟨j, by omega, ?_⟩, ?_⟩
    · rcases hValue with h | ⟨rfl, h⟩
      · -- a negative element is not below the first one, which the word is not above
        have := hNegative j hj
        omega
      · exact h
    rintro _ ⟨i, hi, rfl⟩
    refine Int.le_trans ?_ (hTo i hi)
    rcases hNegative k hk with hPos | hLe
    · have hCases := toInt_cases (s.array k)
      rcases Nat.lt_or_ge v k with hTail | hVector
      · have : w.toInt ≤ (s.array k).toNat := hLeast.2 (.inr (.inr ⟨k, hTail, hk, rfl⟩))
        omega
      · -- the vector part has been compared with its own extremum
        have hTop : w.toInt ≤ m.toNat := hLeast.2 (.inl rfl)
        have hUnder := hAll k (by omega)
        obtain ⟨p, hp, rfl⟩ := hm
        have := toInt_cases (s.array p)
        have := hNegative p (by omega)
        omega
    · exact Int.le_trans hFirst hLe

section Greatest

variable (hv : v < n) (hm : ∃ j < v + 1, m = s.array j)
  (hGreatest : IsGreatest (insert (m.toNat : Int) (tailWords s v n)) w.toInt)
include hv hm hGreatest

/-- The word is an element that is cleared above its 32 bits, and compares without a sign. -/
theorem greatest_word : (m.toNat : Int) ≤ w.toInt ∧
    (∀ i, v < i → i < n → ((s.array i).toNat : Int) ≤ w.toInt) ∧
    ∃ j < n, w.setWidth 32 = s.array j ∧ ((s.array j).toNat : Int) = w.toInt := by
  obtain ⟨j, hj, hLow, hValue⟩ := low_of_tail hm hv hGreatest.1
  have hTop : (m.toNat : Int) ≤ w.toInt := hGreatest.2 (.inl rfl)
  refine ⟨hTop, fun i hi hin => hGreatest.2 (.inr (.inr ⟨i, hi, hin, rfl⟩)), j, hj, hLow, ?_⟩
  rcases hValue with h | ⟨rfl, h⟩
  · exact h.symm
  · have := toInt_cases (s.array 0)
    omega

theorem signs_of_small (hSmall : w.toInt < 2 ^ 31) :
    (∀ i < n, v < i → 0 ≤ (s.array i).toInt) ∧ ∃ i ≤ v, 0 ≤ (s.array i).toInt := by
  obtain ⟨hTop, hTail, -⟩ := greatest_word hv hm hGreatest
  refine ⟨fun i hi hin => ?_, ?_⟩
  · have := hTail i hin hi
    have := toInt_cases (s.array i)
    omega
  · obtain ⟨p, hp, rfl⟩ := hm
    have := toInt_cases (s.array p)
    exact ⟨p, by omega, by omega⟩

variable (hAll : ∀ j < v + 1, (s.array j).toInt ≤ m.toInt)
include hAll

/-- The element of the word is the largest one, if the signs allow it. -/
theorem largest_of_signs (hRest : ∀ i < n, v < i → 0 ≤ (s.array i).toInt)
    (hPos : ∃ i ≤ v, 0 ≤ (s.array i).toInt) {j : Nat} (hj : j < n)
    (hSame : ((s.array j).toNat : Int) = w.toInt) :
    0 ≤ (s.array j).toInt ∧ ∀ k < n, (s.array k).toInt ≤ (s.array j).toInt := by
  obtain ⟨hTop, hTail, -⟩ := greatest_word hv hm hGreatest
  obtain ⟨q, hq, hPos⟩ := hPos
  obtain ⟨p, hp, rfl⟩ := hm
  have hVector := hAll q (by omega)
  have hCases := toInt_cases (s.array p)
  have hSign := toInt_cases (s.array j)
  have hPosJ : 0 ≤ (s.array j).toInt := by
    rcases Nat.lt_or_ge v j with hBehind | hInVector
    · exact hRest j hj hBehind
    · rcases hGreatest.1 with h | h | ⟨i, hvi, hin, h⟩
      · omega
      · have := hAll 0 (by omega)
        omega
      · have := hRest i hin hvi
        have := toInt_cases (s.array i)
        omega
  refine ⟨hPosJ, fun k hk => ?_⟩
  have hCases' := toInt_cases (s.array k)
  rcases Nat.lt_or_ge v k with hBehind | hInVector
  · have := hTail k hBehind hk
    omega
  · have := hAll k (by omega)
    omega

theorem greatest_wide_iff (hl : n ≤ l) : IsGreatest {x | ∃ i < l, x = (s.array i).toInt} w.toInt ↔
      (∃ j < n, ∀ i < l, (s.array i).toInt ≤ (s.array j).toInt) ∧
      (∀ i < n, v < i → 0 ≤ (s.array i).toInt) ∧ ∃ i ≤ v, 0 ≤ (s.array i).toInt := by
  obtain ⟨-, -, j, hj, -, hSame⟩ := greatest_word hv hm hGreatest
  have hSign := toInt_cases (s.array j)
  constructor
  · rintro ⟨⟨q, -, hElement⟩, hAbove⟩
    -- the word is the number of an element, so it is below `2 ^ 31`
    have hSmall := toInt_cases (s.array q)
    refine ⟨⟨j, hj, fun i hi => ?_⟩, signs_of_small hv hm hGreatest (by omega)⟩
    have : (s.array i).toInt ≤ w.toInt := hAbove ⟨i, hi, rfl⟩
    omega
  · rintro ⟨⟨k, hk, hTo⟩, hRest, hPos⟩
    obtain ⟨hPosJ, hLargest⟩ := largest_of_signs hv hm hGreatest hAll hRest hPos hj hSame
    refine ⟨⟨j, by omega, by omega⟩, ?_⟩
    rintro _ ⟨i, hi, rfl⟩
    have := hTo i hi
    have := hLargest k hk
    omega

theorem greatest_int32_iff (hl : n ≤ l) :
    IsGreatest {x | ∃ i < l, x = (s.array i).toInt} (w.setWidth 32).toInt ↔
      (∃ j < n, ∀ i < l, (s.array i).toInt ≤ (s.array j).toInt) ∧
      ((∀ i < n, (s.array i).toInt < 0) ∨
        (∀ i < n, v < i → 0 ≤ (s.array i).toInt) ∧ ∃ i ≤ v, 0 ≤ (s.array i).toInt) := by
  obtain ⟨hTop, hTail, j, hj, hLow, hSame⟩ := greatest_word hv hm hGreatest
  have hSign := toInt_cases (s.array j)
  rw [hLow]
  constructor
  · rintro ⟨-, hAbove⟩
    refine ⟨⟨j, hj, fun i hi => hAbove ⟨i, hi, rfl⟩⟩, ?_⟩
    rcases Int.lt_or_le (s.array j).toInt 0 with hNegative | hPos
    · refine .inl fun i hi => ?_
      have : (s.array i).toInt ≤ (s.array j).toInt := hAbove ⟨i, by omega, rfl⟩
      omega
    · exact .inr (signs_of_small hv hm hGreatest (by omega))
  · rintro ⟨⟨k, hk, hTo⟩, hSigns⟩
    refine ⟨⟨j, by omega, rfl⟩, ?_⟩
    rintro _ ⟨i, hi, rfl⟩
    refine Int.le_trans (hTo i hi) ?_
    rcases hSigns with hNegative | ⟨hRest, hPos⟩
    · have hCases := toInt_cases (s.array k)
      obtain ⟨p, hp, rfl⟩ := hm
      have hCases' := toInt_cases (s.array p)
      have := hNegative j hj
      have := hNegative k hk
      have := hNegative p (by omega)
      rcases Nat.lt_or_ge v k with hBehind | hVector
      · have := hTail k hBehind hk
        omega
      · have := hAll k (by omega)
        omega
    · exact (largest_of_signs hv hm hGreatest hAll hRest hPos hj hSame).2 k hk

end Greatest

theorem greatest_iff (hv : v < n) (hl : n ≤ l) (hm : ∃ j < v + 1, m = s.array j)
    (hAll : ∀ j < v + 1, (s.array j).toInt ≤ m.toInt)
    (hGreatest : IsGreatest (insert (m.toNat : Int) (tailWords s v n)) w.toInt) :
    IsGreatest {x | ∃ i < l, x = (s.array i).toInt} (home.number w) ↔
      (∃ j < n, ∀ i < l, (s.array i).toInt ≤ (s.array j).toInt) ∧
      ((home = .int32 ∧ ∀ i < n, (s.array i).toInt < 0) ∨
        (∀ i < n, v < i → 0 ≤ (s.array i).toInt) ∧ ∃ i ≤ v, 0 ≤ (s.array i).toInt) := by
  cases home with
  | wide =>
    refine (greatest_wide_iff hv hm hGreatest hAll hl).trans (and_congr_right fun _ => ?_)
    exact ⟨.inr, fun h => h.resolve_left fun hHome => nomatch hHome.1⟩
  | int32 =>
    refine (greatest_int32_iff hv hm hGreatest hAll hl).trans (and_congr_right fun _ => ?_)
    exact or_congr_left ⟨fun h => ⟨rfl, h⟩, fun h => h.2⟩

end Value

theorem minmax_kernel (hPc : s.pc = 0) (hReads : s.reads = [])
    (hBase : (s.registers .rcx).toNat + 4 < 2 ^ 64)
    (hMin : s.registers .r10 = (s.array 0).signExtend 64)
    (hMax : s.registers .r11 = (s.array 0).signExtend 64) :
    ∃ t last, MinMaxAt s (vectorLast s) (scanned s) t ∧ Halts simdMinMaxI32 s last ∧
      last.registers .r10 = lesser (t.registers .r10) ((across minSigned (t.lanes 4)).setWidth 64) ∧
      last.registers .r11 = larger (t.registers .r11) ((across maxSigned (t.lanes 5)).setWidth 64) ∧
      last.registers .r14 = t.registers .r14 ∧ last.reads = t.reads := by
  obtain ⟨first, hFirst⟩ := MinMaxAt.start hPc hReads hMin hMax
  obtain ⟨t, ht⟩ := hFirst.exists_last hBase
  have hPos : 1 ≤ scanned s := by
    rcases scanned_cases s with h | h <;> omega
  obtain ⟨last, hRun, hEnd, hRest⟩ := minmax_end ht.pc
    (by rw [ht.next, ht.last, arrayEnd_below hBase hPos (Nat.le_refl _)]; simp)
  exact ⟨t, last, ht, ⟨ht.steps.trans ⟨16, hRun⟩, by rw [hEnd]; rfl⟩, hRest⟩

/-- **The min/max kernel.** It finds the extrema, reads nothing but the array and keeps the
registers of promoted variables, if and only if the length and the elements are ordered so. -/
theorem simd_minmax_iff (minHome maxHome : ExtremumHome) (hPc : s.pc = 0) (hReads : s.reads = [])
    (hBase : (s.registers .rcx).toNat + 4 < 2 ^ 64)
    (hMin : s.registers .r10 = (s.array 0).signExtend 64)
    (hMax : s.registers .r11 = (s.array 0).signExtend 64) :
    FindsExtrema minHome maxHome s ↔ Ordered maxHome s := by
  obtain ⟨t, last, ht, hHalts, h10, h11, h14, hLast⟩ := minmax_kernel hPc hReads hBase hMin hMax
  have hBehind : vectorLast s < scanned s := by
    rw [vectorLast]
    rcases scanned_cases s with h | h <;> omega
  obtain ⟨hLow, hLowAll⟩ := ht.low.across minSigned_picks
  obtain ⟨hHigh, hHighAll⟩ := ht.high.across maxSigned_picks
  have hLeast : IsLeast (insert ((across minSigned (t.lanes 4)).toNat : Int)
      (tailWords s (vectorLast s) (scanned s))) (last.registers .r10).toInt := by
    rw [h10, lesser_toInt]
    exact ht.least.insert _
  have hGreatest : IsGreatest (insert ((across maxSigned (t.lanes 5)).toNat : Int)
      (tailWords s (vectorLast s) (scanned s))) (last.registers .r11).toInt := by
    rw [h11, larger_toInt]
    exact ht.greatest.insert _
  have hTail : last.registers .r14 = s.registers .r14 ↔
      scanned s = vectorLast s + 1 ∨ s.registers .r14 = (s.array (scanned s - 1)).setWidth 64 := by
    rw [h14, ht.r14]
    split
    · exact ⟨fun _ => .inl ‹_›, fun _ => rfl⟩
    · exact ⟨fun h => .inr h.symm, fun h => (h.resolve_left ‹_›).symm⟩
  constructor
  · rintro ⟨last', hHalts', hLeast', hGreatest', hRead, hKept⟩
    obtain rfl := hHalts.unique hHalts'
    have hWithin : scanned s ≤ arrayLength s := by
      by_contra hMore
      -- the length is negative, and the second word is read
      have hOne : arrayLength s = 1 := by
        have := toInt_cases (s.low .rdx)
        rw [arrayLength] at hMore ⊢
        rcases scanned_cases s with h | h <;> omega
      obtain ⟨read, hMem, hWhere, hBytes⟩ := ht.past (by omega)
      obtain ⟨k, hk, hSame⟩ := hRead read (hLast ▸ hMem) 0 hBytes
      rw [hWhere, BitVec.add_zero] at hSame
      have hFour : 4 = k % 2 ^ 64 :=
        congrArg BitVec.toNat ((BitVec.add_right_inj _).mp hSame)
      omega
    obtain ⟨hLeastOne, hNegatives⟩ := (least_iff hBehind hWithin hLow hLowAll hLeast).mp hLeast'
    obtain ⟨hGreatestOne, hSigns⟩ :=
      (greatest_iff hBehind hWithin hHigh hHighAll hGreatest).mp hGreatest'
    exact ⟨hWithin, hLeastOne, hGreatestOne, hNegatives, hSigns, hTail.mp (hKept .r14 (by decide))⟩
  · intro h
    refine ⟨last, hHalts, (least_iff hBehind h.within hLow hLowAll hLeast).mpr ⟨h.least, h.negatives⟩,
      (greatest_iff hBehind h.within hHigh hHighAll hGreatest).mpr ⟨h.greatest, h.signs⟩, ?_, ?_⟩
    · intro read hRead b hb
      obtain ⟨j, c, hjc, rfl⟩ := ht.within read (hLast ▸ hRead)
      have := h.within
      exact ⟨4 * j + b, by simp only at hb; omega, by rw [BitVec.add_assoc, ← BitVec.ofNat_add]⟩
    · intro register hRegister
      by_cases hr : register = .r14
      · exact hr ▸ hTail.mpr h.r14
      · obtain ⟨n, hRun⟩ := hHalts.1
        rw [← hRun]
        refine simdRun_keeps (fun instruction hMem => ?_) n s
        revert hr
        revert instruction register
        decide

end Extrema

-- ---
-- Elements of both signs
-- ---

/-- The elements at 4096, and zeros around them. -/
def elementsAt4096 (elements : List (BitVec 32)) : ByteMemory := fun p =>
  if 4096 ≤ p.toNat then
    ((elements.getD ((p.toNat - 4096) / 4) 0) >>> (8 * ((p.toNat - 4096) % 4))).setWidth 8
  else 0

/-- The start of the kernel on the elements at 4096, the first of which are the extrema so far. -/
def minmaxStart (elements : List (BitVec 32)) : SimdState where
  registers register :=
    if register = .rcx then 4096 else if register = .rdx then BitVec.ofNat 64 elements.length
    else if register = .r10 ∨ register = .r11 then (elements.getD 0 0).signExtend 64 else 0
  lanes _ _ := 0
  memory := elementsAt4096 elements
  flags := ⟨false, false, false⟩
  reads := []
  pc := 0

/-- One round of the vector part: the first is the smallest, and no other negative one is. -/
def mixedElements : List (BitVec 32) :=
  [-5, 7, -2, 0, 12, -5, 3, 9, -1, 4, 4, 11, -3, 2, 8, 1, 6]

theorem simd_minmax_iff_mixed : FindsExtrema .wide .wide (minmaxStart mixedElements) :=
  (simd_minmax_iff .wide .wide rfl rfl (by decide) (by decide) (by decide)).mpr
    ⟨by decide, ⟨0, by decide, by decide⟩, ⟨4, by decide, by decide⟩, by decide, by decide,
      by decide⟩

/-- **The minimum that is missed.** Of 1 and -1 the kernel makes 1. -/
theorem negative_missed : ¬ FindsExtrema .wide .wide (minmaxStart [1, -1]) := by
  rintro ⟨last, hHalts, hLeast, -⟩
  obtain rfl := hHalts.unique (⟨⟨38, rfl⟩, by decide⟩ : Halts simdMinMaxI32 _
    (simdRun simdMinMaxI32 38 (minmaxStart [1, -1])))
  have hSecond := hLeast.2 ⟨1, by decide, rfl⟩
  revert hSecond
  decide

end Mettle.Codegen
