import Mettle.Codegen.SimdMachine
import Mettle.Lib.Insertion

/-!
# Mettle — the word count kernel

The code of `IR_OP_COUNT_WORD_STARTS`. Of every 16 bytes it makes a mask of those that are no white
space, and counts the bits whose lower neighbour is not set; the bit below the mask is carried over
from the last 16 bytes, and into the loop over the last bytes. The length is compared as an unsigned
number, where the loop that the kernel replaces compares it as a signed one.
-/

namespace Mettle.Codegen

open Mettle.Lib List BitVec

/-- `code_generator_binary_emit_count_word_starts`, between the loads of its operands and the store
of its destination: `rcx` is the buffer, `rdx` the length, `rax` the count and `r8d` the carry. -/
def simdCountWordStarts : List Simd :=
  [.xorSelf32 .r8, .movImm32 .r9 0x20202020, .movdToXmm 1 .r9, .pshufd 1 1 0,
   .movImm32 .r9 0x09090909, .movdToXmm 2 .r9, .pshufd 2 2 0,
   .movImm32 .r9 0x0A0A0A0A, .movdToXmm 3 .r9, .pshufd 3 3 0,
   .movImm32 .r9 0x0D0D0D0D, .movdToXmm 4 .r9, .pshufd 4 4 0,
   -- loop_top
   .cmpImm .rdx 16, .jump .below 45,
   .movdquLoad 0 .rcx 0, .packed .movdqa 5 0, .packed .pcmpeqb 0 1,
   .packed .movdqa 6 5, .packed .pcmpeqb 6 2, .packed .por 0 6,
   .packed .movdqa 6 5, .packed .pcmpeqb 6 3, .packed .por 0 6,
   .packed .movdqa 6 5, .packed .pcmpeqb 6 4, .packed .por 0 6,
   .pmovmskb .r9 0, .mov32 .r10 .r9, .not32 .r10, .andImm .r10 0xFFFF,
   .mov32 .r11 .r10, .shl32 .r11 1, .or32 .r11 .r8,
   .mov32 .r8 .r10, .shr32 .r8 15, .andImm .r8 1,
   .not32 .r11, .and32 .r11 .r10, .andImm .r11 0xFFFF, .popcnt32 .r11 .r11, .add .rax .r11,
   .addImm .rcx 16, .addImm .rdx (-16), .jump .always 13,
   -- the scalar tail
   .cmpImm .rdx 0, .jump .equal 66,
   -- tail_top
   .loadByte .r9 .rcx,
   .cmpImm32 .r9 32, .jump .equal 61, .cmpImm32 .r9 9, .jump .equal 61,
   .cmpImm32 .r9 10, .jump .equal 61, .cmpImm32 .r9 13, .jump .equal 61,
   .test32 .r8, .jump .notEqual 59, .addImm .rax 1, .movImm32 .r8 1, .jump .always 62,
   .xorSelf32 .r8,
   .addImm .rcx 1, .addImm .rdx (-1), .cmpImm .rdx 0, .jump .notEqual 47]

attribute [local simp] simdCountWordStarts

-- ---
-- Words
-- ---

def isWhitespace (c : BitVec 8) : Bool := c == 32 || c == 9 || c == 10 || c == 13

/-- The `n` bytes from `a` on. -/
def byteText (memory : ByteMemory) (a : Word) (n : Nat) : List (BitVec 8) :=
  (List.range n).map fun k => memory (a + BitVec.ofNat 64 k)

/-- The kernel has ended with the number of words added, has read nothing but the bytes and has
written nothing. -/
def CountsWords (s : SimdState) : Prop :=
  ∃ last, Halts simdCountWordStarts s last ∧
    last.registers .rax = s.registers .rax + BitVec.ofNat 64
      (runs isWhitespace (byteText s.memory (s.registers .rcx) (s.registers .rdx).toInt.toNat)) ∧
    last.memory = s.memory ∧
    Within (s.registers .rcx) (s.registers .rdx).toInt.toNat last.reads

-- ---
-- The masks
-- ---

def spacesIn (chunk space tab feed ret : Lanes) : BitVec 32 :=
  signMask fun lane =>
    equalBytes (chunk lane) (space lane) ||| equalBytes (chunk lane) (tab lane) |||
      equalBytes (chunk lane) (feed lane) ||| equalBytes (chunk lane) (ret lane)

/-- `nw`: the bytes that are none. -/
def wordMask (spaces : BitVec 32) : BitVec 32 := ~~~ spaces &&& 0xFFFF

/-- `starts`: the bytes behind another one. -/
def startMask (words carry : BitVec 32) : BitVec 32 :=
  ~~~ (words <<< 1 ||| carry) &&& words &&& 0xFFFF

section Blocks

variable {s : SimdState}

theorem back_sixteen (w : Word) : w + BitVec.ofInt 64 (-16) = w - 16 := by
  rw [sub_eq_add_neg]
  exact congrArg (w + ·) (by decide)

theorem low_carry (w : BitVec 32) : ((w.setWidth 64 &&& 65535#64) >>> 15).setWidth 32 &&& 1#32 =
      (w &&& 65535#32) >>> 15 &&& 1#32 := by
  refine eq_of_getLsbD_eq fun i hi => ?_
  simp only [getLsbD_and, getLsbD_setWidth, getLsbD_ushiftRight, getLsbD_one]
  by_cases hLow : i = 0
  · subst hLow
    simp
  · simp [hLow]

theorem words_start (hPc : s.pc = 0) :
    ∃ t, simdRun simdCountWordStarts 13 s = t ∧ t.pc = 13 ∧ t.memory = s.memory ∧
      t.reads = s.reads ∧ t.registers .rax = s.registers .rax ∧
      t.registers .rcx = s.registers .rcx ∧ t.registers .rdx = s.registers .rdx ∧
      t.low .r8 = 0 ∧
      t.lanes 1 = (fun _ => 0x20202020) ∧ t.lanes 2 = (fun _ => 0x09090909) ∧
      t.lanes 3 = (fun _ => 0x0A0A0A0A) ∧ t.lanes 4 = (fun _ => 0x0D0D0D0D) := by
  obtain ⟨registers, lanes, memory, flags, reads, pc⟩ := s
  obtain rfl : pc = 0 := hPc
  refine ⟨_, rfl, ?_⟩
  simp [shuffled, funext_iff]

theorem words_vector (hPc : s.pc = 13) (hEnough : (s.registers .rdx).ult 16 = false) :
    ∃ t, simdRun simdCountWordStarts 32 s = t ∧ t.pc = 13 ∧ t.memory = s.memory ∧
      t.reads = s.reads ++ [(s.registers .rcx, 16)] ∧
      t.registers .rcx = s.registers .rcx + 16 ∧ t.registers .rdx = s.registers .rdx - 16 ∧
      t.lanes 1 = s.lanes 1 ∧ t.lanes 2 = s.lanes 2 ∧ t.lanes 3 = s.lanes 3 ∧
      t.lanes 4 = s.lanes 4 ∧
      t.low .r8 = wordMask (spacesIn (lanesAt s.memory (s.registers .rcx)) (s.lanes 1)
        (s.lanes 2) (s.lanes 3) (s.lanes 4)) >>> 15 &&& 1 ∧
      t.registers .rax = s.registers .rax + (startMask (wordMask (spacesIn
        (lanesAt s.memory (s.registers .rcx)) (s.lanes 1) (s.lanes 2) (s.lanes 3) (s.lanes 4)))
        (s.low .r8)).cpop.setWidth 64 := by
  obtain ⟨registers, lanes, memory, flags, reads, pc⟩ := s
  obtain rfl : pc = 13 := hPc
  have h : (registers .rdx).ult 16#64 = false := hEnough
  refine ⟨_, rfl, ?_⟩
  simp [PackedOp.apply, spacesIn, wordMask, startMask, h]
  exact ⟨back_sixteen _, low_carry _⟩

theorem words_tail (hPc : s.pc = 13) (hFew : (s.registers .rdx).ult 16 = true) :
    ∃ t, Steps simdCountWordStarts s t ∧ t.memory = s.memory ∧ t.reads = s.reads ∧
      t.pc = (if s.registers .rdx = 0 then 66 else 47) ∧ t.registers = s.registers := by
  obtain ⟨registers, lanes, memory, flags, reads, pc⟩ := s
  obtain rfl : pc = 13 := hPc
  have h : (registers .rdx).ult 16#64 = true := hFew
  refine ⟨_, ⟨4, rfl⟩, ?_⟩
  by_cases hNone : registers .rdx = 0
  all_goals simp [h, hNone]

theorem words_space (hPc : s.pc = 47) (hSpace : isWhitespace (s.memory (s.registers .rcx)) = true) :
    ∃ t, Steps simdCountWordStarts s t ∧ t.pc = 62 ∧ t.memory = s.memory ∧
      t.reads = s.reads ++ [(s.registers .rcx, 1)] ∧ t.registers .rcx = s.registers .rcx ∧
      t.registers .rdx = s.registers .rdx ∧ t.registers .rax = s.registers .rax ∧
      t.low .r8 = 0 := by
  obtain ⟨registers, lanes, memory, flags, reads, pc⟩ := s
  obtain rfl : pc = 47 := hPc
  have hByte : isWhitespace (memory (registers .rcx)) = true := hSpace
  simp only [isWhitespace, Bool.or_eq_true, beq_iff_eq] at hByte
  rcases hByte with ((hByte | hByte) | hByte) | hByte
  · refine ⟨_, ⟨4, rfl⟩, ?_⟩
    simp [hByte]
  · refine ⟨_, ⟨6, rfl⟩, ?_⟩
    simp [hByte]
  · refine ⟨_, ⟨8, rfl⟩, ?_⟩
    simp [hByte]
  · refine ⟨_, ⟨10, rfl⟩, ?_⟩
    simp [hByte]

theorem byte_equal (b c : BitVec 8) : (b.setWidth 32 == c.setWidth 32) = (b == c) := by
  rw [Bool.eq_iff_iff, beq_iff_eq, beq_iff_eq]
  refine ⟨fun h => BitVec.eq_of_toNat_eq ?_, congrArg _⟩
  have hNat := congrArg BitVec.toNat h
  simp only [BitVec.toNat_setWidth] at hNat
  omega

theorem words_word (hPc : s.pc = 47) (hWord : isWhitespace (s.memory (s.registers .rcx)) = false) :
    ∃ t, Steps simdCountWordStarts s t ∧ t.pc = 62 ∧ t.memory = s.memory ∧
      t.reads = s.reads ++ [(s.registers .rcx, 1)] ∧ t.registers .rcx = s.registers .rcx ∧
      t.registers .rdx = s.registers .rdx ∧
      t.registers .rax = s.registers .rax + (if s.low .r8 = 0 then 1 else 0) ∧
      t.low .r8 = 1 := by
  obtain ⟨registers, lanes, memory, flags, reads, pc⟩ := s
  obtain rfl : pc = 47 := hPc
  have hByte : isWhitespace (memory (registers .rcx)) = false := hWord
  simp only [isWhitespace, Bool.or_eq_false_iff] at hByte
  obtain ⟨⟨⟨hSpace, hTab⟩, hFeed⟩, hReturn⟩ := hByte
  rw [← byte_equal] at hSpace hTab hFeed hReturn
  simp only [reduceSetWidth] at hSpace hTab hFeed hReturn
  by_cases hCarry : (registers .r8).setWidth 32 = 0#32
  · refine ⟨_, ⟨14, rfl⟩, ?_⟩
    simp [hSpace, hTab, hFeed, hReturn, hCarry]
  · refine ⟨_, ⟨13, rfl⟩, ?_⟩
    simp [hSpace, hTab, hFeed, hReturn, hCarry]

theorem words_next (hPc : s.pc = 62) :
    ∃ t, Steps simdCountWordStarts s t ∧ t.memory = s.memory ∧ t.reads = s.reads ∧
      t.pc = (if s.registers .rdx - 1 = 0 then 66 else 47) ∧
      t.registers .rcx = s.registers .rcx + 1 ∧ t.registers .rdx = s.registers .rdx - 1 ∧
      t.registers .rax = s.registers .rax ∧ t.low .r8 = s.low .r8 := by
  obtain ⟨registers, lanes, memory, flags, reads, pc⟩ := s
  obtain rfl : pc = 62 := hPc
  refine ⟨_, ⟨4, rfl⟩, ?_⟩
  have hBack : registers .rdx + 18446744073709551615#64 = registers .rdx - 1 := by
    rw [sub_eq_add_neg]
    exact congrArg (registers .rdx + ·) (by decide)
  simp [hBack]

end Blocks

-- ---
-- Sixteen bytes
-- ---

/-- The carry, in `r8d`. -/
def carryWord (inside : Bool) : BitVec 32 := if inside then 1 else 0

def chunkWords (memory : ByteMemory) (a : Word) : BitVec 32 :=
  wordMask (spacesIn (lanesAt memory a) (fun _ => 0x20202020) (fun _ => 0x09090909)
    (fun _ => 0x0A0A0A0A) fun _ => 0x0D0D0D0D)

variable {k n : Nat} (inside : Bool)

section Chunk

variable {memory : ByteMemory} {a : Word}

theorem byteOf_word32 (hk : k < 4) :
    byteOf (word32 memory a) k = memory (a + BitVec.ofNat 64 k) := by
  have hLow := readLE_lt memory a k
  have hMod : readLE memory a 4 % 256 ^ (k + 1) =
      readLE memory a k + 256 ^ k * (memory (a + BitVec.ofNat 64 k)).toNat :=
    readLE_mod memory a (by omega)
  have hWord : readLE memory a 4 < 2 ^ 32 := readLE_lt memory a 4
  refine BitVec.eq_of_toNat_eq ?_
  have hByte : readLE memory a 4 / 256 ^ k % 256 = (memory (a + BitVec.ofNat 64 k)).toNat := by
    rw [← Nat.mod_mul_right_div_self, ← Nat.pow_succ, Nat.succ_eq_add_one, hMod,
      Nat.add_mul_div_left _ _ (Nat.pow_pos (by decide)), Nat.div_eq_of_lt hLow, Nat.zero_add]
  rw [byteOf, BitVec.extractLsb'_toNat, word32, BitVec.toNat_ofNat, ← hByte,
    Nat.mod_eq_of_lt hWord, Nat.shiftRight_eq_div_pow, Nat.pow_mul]

theorem equalBytes_high {b c : BitVec 32} (hk : k < 4) :
    (equalBytes b c).getLsbD (8 * k + 7) = (byteOf b k == byteOf c k) := by
  have hPlace : (8 * k + 7) / 8 = k := by omega
  rw [equalBytes, getLsbD_bitsWord, hPlace, decide_eq_true (show 8 * k + 7 < 32 by omega),
    Bool.true_and]

theorem byteOf_patterns : ∀ k < 4,
    byteOf (0x20202020 : BitVec 32) k = 32 ∧ byteOf (0x09090909 : BitVec 32) k = 9 ∧
      byteOf (0x0A0A0A0A : BitVec 32) k = 10 ∧ byteOf (0x0D0D0D0D : BitVec 32) k = 13 := by
  decide

theorem low_sixteen (i : Nat) : (0xFFFF : BitVec 32).getLsbD i = decide (i < 16) := by
  have hOnes : (0xFFFF : BitVec 32) = (allOnes 16).setWidth 32 := by decide
  rw [hOnes, getLsbD_setWidth, getLsbD_allOnes]
  simp only [← Bool.decide_and]
  exact decide_eq_decide.mpr (by omega)

theorem chunkWords_bit (i : Nat) : (chunkWords memory a).getLsbD i =
    (decide (i < 16) && !isWhitespace (memory (a + BitVec.ofNat 64 i))) := by
  rcases Nat.lt_or_ge i 16 with hIn | hOut
  · have hByte : i % 4 < 4 := Nat.mod_lt _ (by decide)
    have hLane : i / 4 % 4 = i / 4 := Nat.mod_eq_of_lt (by omega)
    have hPlace : a + BitVec.ofNat 64 (4 * (i / 4 % 4)) + BitVec.ofNat 64 (i % 4) =
        a + BitVec.ofNat 64 i := by
      rw [BitVec.add_assoc, ← BitVec.ofNat_add, hLane, Nat.div_add_mod]
    obtain ⟨hSpace, hTab, hFeed, hReturn⟩ := byteOf_patterns (i % 4) hByte
    simp only [chunkWords, wordMask, BitVec.getLsbD_and, BitVec.getLsbD_not, spacesIn, signMask,
      getLsbD_bitsWord, BitVec.getLsbD_or, equalBytes_high hByte, lanesAt, byteOf_word32 hByte,
      hPlace, hSpace, hTab, hFeed, hReturn, isWhitespace, low_sixteen]
    simp [hIn, show i < 32 by omega]
  · rw [chunkWords, wordMask, BitVec.getLsbD_and, low_sixteen,
      decide_eq_false (Nat.not_lt.mpr hOut), Bool.and_false, Bool.false_and]

theorem carryWord_bit (i : Nat) : (carryWord inside).getLsbD i = (decide (i = 0) && inside) := by
  cases inside <;> simp [carryWord]

theorem chunkWords_carry : chunkWords memory a >>> 15 &&& 1 =
    carryWord (endsInside isWhitespace inside (byteText memory a 16)) := by
  rw [byteText, endsInside_range, if_neg (by decide)]
  refine eq_of_getLsbD_eq fun i hi => ?_
  rw [getLsbD_and, getLsbD_ushiftRight, chunkWords_bit, carryWord_bit]
  by_cases hLow : i = 0
  · subst hLow
    simp
  · simp [hLow]

theorem startMask_bit (i : Nat) : (startMask (chunkWords memory a) (carryWord inside)).getLsbD i =
      (decide (i < 16) && (!isWhitespace (memory (a + BitVec.ofNat 64 i)) &&
        !(if i = 0 then inside else !isWhitespace (memory (a + BitVec.ofNat 64 (i - 1)))))) := by
  rw [startMask, getLsbD_and, getLsbD_and, getLsbD_not, getLsbD_or,
    getLsbD_shiftLeft, carryWord_bit, chunkWords_bit, chunkWords_bit, low_sixteen]
  rcases Nat.lt_or_ge i 16 with hIn | hOut
  · by_cases hLow : i = 0
    · simp [hLow, Bool.and_comm]
    · simp [hIn, hLow, show i < 32 by omega, show ¬ i < 1 by omega, show i - 1 < 16 by omega,
        Bool.and_comm]
  · simp [show ¬ i < 16 by omega]

theorem cpop_eq_countP (w : BitVec n) : w.cpop.toNat = (List.range n).countP w.getLsbD := by
  rw [toNat_cpop]
  suffices h : ∀ k, w.cpopNatRec k 0 = (range k).countP w.getLsbD from h n
  intro k
  induction k with
  | zero => rfl
  | succ k ih =>
    rw [cpopNatRec_succ, cpopNatRec_eq, ih, range_succ, countP_append,
      countP_singleton, Nat.zero_add]
    cases w.getLsbD k <;> rfl

/-- **Sixteen bytes.** -/
theorem chunk_starts : (startMask (chunkWords memory a) (carryWord inside)).cpop.toNat =
      runStarts isWhitespace inside (byteText memory a 16) := by
  have hHalves : range 32 = range 16 ++ (range 16).map (16 + ·) := by
    decide
  have hHigh : ((range 16).map (16 + ·)).countP
      (startMask (chunkWords memory a) (carryWord inside)).getLsbD = 0 := by
    refine countP_eq_zero.mpr fun i hMem => ?_
    obtain ⟨k, -, rfl⟩ := mem_map.mp hMem
    rw [startMask_bit, decide_eq_false (show ¬ 16 + k < 16 by omega)]
    exact Bool.false_ne_true
  rw [cpop_eq_countP, hHalves, countP_append, hHigh, Nat.add_zero, byteText, runStarts_range]
  refine countP_congr fun i hMem => ?_
  rw [startMask_bit, decide_eq_true (mem_range.mp hMem), Bool.true_and]

end Chunk

-- ---
-- The loops
-- ---

variable {s : SimdState}

section Loops

variable {memory : ByteMemory} {a : Word}

theorem byteText_add (n m : Nat) : byteText memory a (n + m) =
    byteText memory a n ++ byteText memory (a + BitVec.ofNat 64 n) m := by
  rw [byteText, range_add, map_append, map_map]
  refine congrArg (_ ++ ·) (map_congr_left fun k _ => ?_)
  rw [BitVec.add_assoc, ← BitVec.ofNat_add]
  rfl

theorem byteText_cons (n : Nat) :
    byteText memory a (n + 1) = memory a :: byteText memory (a + 1) n := by
  rw [Nat.add_comm, byteText_add]
  simp [byteText]

theorem within_first (h : k ≤ n) : Within a n [(a, k)] := by
  rintro access hMem j hj
  obtain rfl := mem_singleton.mp hMem
  exact ⟨j, Nat.lt_of_lt_of_le hj h, rfl⟩

theorem Within.behind {m : Nat} {accesses : List (Word × Nat)}
    (h : Within (a + BitVec.ofNat 64 n) m accesses) : Within a (n + m) accesses := by
  intro access hMem j hj
  obtain ⟨k, hk, hSame⟩ := h access hMem j hj
  exact ⟨n + k, by omega, by rw [hSame, BitVec.add_assoc, ← BitVec.ofNat_add]⟩

theorem words_tail_byte (hPc : s.pc = 47) (hCarry : s.low .r8 = carryWord inside) :
    ∃ t, Steps simdCountWordStarts s t ∧ t.memory = s.memory ∧
      t.reads = s.reads ++ [(s.registers .rcx, 1)] ∧
      t.pc = (if s.registers .rdx - 1 = 0 then 66 else 47) ∧
      t.registers .rcx = s.registers .rcx + 1 ∧ t.registers .rdx = s.registers .rdx - 1 ∧
      t.registers .rax = s.registers .rax + BitVec.ofNat 64
        (runStarts isWhitespace inside [s.memory (s.registers .rcx)]) ∧
      t.low .r8 = carryWord (!isWhitespace (s.memory (s.registers .rcx))) := by
  rcases hByte : isWhitespace (s.memory (s.registers .rcx)) with _ | _
  · obtain ⟨t, hRun, hPc', hMemory, hReads, hPlace, hLength, hCount, hCarry'⟩ :=
      words_word hPc hByte
    obtain ⟨u, hNext, hMemory', hReads', hPc'', hPlace', hLength', hCount', hSame⟩ :=
      words_next hPc'
    refine ⟨u, hRun.trans hNext, hMemory'.trans hMemory, hReads'.trans hReads, ?_, ?_, ?_, ?_,
      hSame.trans hCarry'⟩
    · rw [hPc'', hLength]
    · rw [hPlace', hPlace]
    · rw [hLength', hLength]
    · rw [hCount', hCount, hCarry]
      cases inside <;> simp [runStarts, hByte, carryWord]
  · obtain ⟨t, hRun, hPc', hMemory, hReads, hPlace, hLength, hCount, hCarry'⟩ :=
      words_space hPc hByte
    obtain ⟨u, hNext, hMemory', hReads', hPc'', hPlace', hLength', hCount', hSame⟩ :=
      words_next hPc'
    refine ⟨u, hRun.trans hNext, hMemory'.trans hMemory, hReads'.trans hReads, ?_, ?_, ?_, ?_,
      hSame.trans hCarry'⟩
    · rw [hPc'', hLength]
    · rw [hPlace', hPlace]
    · rw [hLength', hLength]
    · rw [hCount', hCount]
      simp [runStarts, hByte]

theorem words_tail_loop (m : Nat) : ∀ (a : Word) (inside : Bool) (s : SimdState), s.pc = 47 →
    s.memory = memory → s.registers .rcx = a → (s.registers .rdx).toNat = m + 1 →
    s.low .r8 = carryWord inside →
    ∃ last reads, Steps simdCountWordStarts s last ∧ last.pc = 66 ∧ last.memory = memory ∧
      last.registers .rax = s.registers .rax + BitVec.ofNat 64
        (runStarts isWhitespace inside (byteText memory a (m + 1))) ∧
      last.reads = s.reads ++ reads ∧ Within a (m + 1) reads := by
  induction m with
  | zero =>
    intro a inside s hPc hMemory hPlace hLength hCarry
    obtain ⟨t, hRun, hMemory', hReads, hPc', -, -, hCount, -⟩ := words_tail_byte inside hPc hCarry
    have hOne : s.registers .rdx - 1 = 0 := by
      refine eq_of_toNat_eq ?_
      rw [toNat_sub, hLength]
      rfl
    rw [if_pos hOne] at hPc'
    refine ⟨t, _, hRun, hPc', hMemory'.trans hMemory, ?_, hReads, ?_⟩
    · rw [hCount, hMemory, hPlace]
      simp [byteText]
    · rw [hPlace]
      exact within_first (Nat.le_refl 1)
  | succ m ih =>
    intro a inside s hPc hMemory hPlace hLength hCarry
    obtain ⟨t, hRun, hMemory', hReads, hPc', hPlace', hLength', hCount, hCarry'⟩ :=
      words_tail_byte inside hPc hCarry
    have hLeft : (s.registers .rdx - 1).toNat = m + 1 := by
      have hOne : (1 : Word).toNat = 1 := rfl
      rw [toNat_sub, hLength, hOne]
      have := (s.registers .rdx).isLt
      omega
    have hMore : s.registers .rdx - 1 ≠ 0 := by
      intro hNone
      rw [hNone] at hLeft
      cases hLeft
    rw [if_neg hMore] at hPc'
    obtain ⟨last, reads, hSteps, hEnd, hLast, hSum, hRest, hWithin⟩ :=
      ih (a + 1) _ t hPc' (hMemory'.trans hMemory) (by rw [hPlace', hPlace])
        (by rw [hLength', hLeft]) hCarry'
    refine ⟨last, (a, 1) :: reads, hRun.trans hSteps, hEnd, hLast, ?_, ?_, ?_⟩
    · have hFirst : runStarts isWhitespace inside (byteText memory a (m + 1 + 1)) =
          runStarts isWhitespace inside [memory a] +
            runStarts isWhitespace (!isWhitespace (memory a)) (byteText memory (a + 1) (m + 1)) := by
        rw [byteText_cons]
        exact runStarts_append inside [memory a] _
      rw [hSum, hCount, hMemory, hPlace, hFirst, BitVec.ofNat_add, BitVec.add_assoc]
    · rw [hRest, hReads, hPlace, List.append_assoc]
      rfl
    · rw [Nat.add_comm (m + 1) 1]
      exact (within_first (Nat.le_add_right 1 _)).append hWithin.behind

/-- At the loop over the chunks: `m` bytes are left, from `a` on. -/
structure AtChunk (memory : ByteMemory) (a : Word) (m : Nat) (inside : Bool) (s : SimdState) :
    Prop where
  pc : s.pc = 13
  memory : s.memory = memory
  place : s.registers .rcx = a
  length : (s.registers .rdx).toNat = m
  carry : s.low .r8 = carryWord inside
  space : s.lanes 1 = fun _ => 0x20202020
  tab : s.lanes 2 = fun _ => 0x09090909
  feed : s.lanes 3 = fun _ => 0x0A0A0A0A
  ret : s.lanes 4 = fun _ => 0x0D0D0D0D

theorem AtChunk.next {m : Nat} {inside : Bool} (h : AtChunk memory a (16 + m) inside s) :
    ∃ t, Steps simdCountWordStarts s t ∧ AtChunk memory (a + BitVec.ofNat 64 16) m
        (endsInside isWhitespace inside (byteText memory a 16)) t ∧
      t.reads = s.reads ++ [(a, 16)] ∧
      t.registers .rax = s.registers .rax + BitVec.ofNat 64
        (runStarts isWhitespace inside (byteText memory a 16)) := by
  have hSixteen : (16 : Word).toNat = 16 := rfl
  have hEnough : (s.registers .rdx).ult 16 = false := by
    rw [BitVec.ult, decide_eq_false_iff_not, h.length, hSixteen]
    omega
  obtain ⟨t, hRun, hPc, hMemory, hReads, hPlace, hLength, hSpace, hTab, hFeed, hReturn, hCarry,
    hCount⟩ := words_vector h.pc hEnough
  rw [h.memory, h.place, h.space, h.tab, h.feed, h.ret] at hCarry hCount
  refine ⟨t, ⟨_, hRun⟩, ⟨hPc, hMemory.trans h.memory, ?_, ?_, ?_, hSpace.trans h.space,
    hTab.trans h.tab, hFeed.trans h.feed, hReturn.trans h.ret⟩, ?_, ?_⟩
  · rw [hPlace, h.place]
    rfl
  · rw [hLength, toNat_sub, h.length, hSixteen]
    have := h.length ▸ (s.registers .rdx).isLt
    omega
  · rw [hCarry]
    exact chunkWords_carry inside
  · rw [hReads, h.place]
  · rw [hCount, h.carry, ← chunk_starts inside, ofNat_toNat]
    rfl

theorem words_loop (m : Nat) : ∀ (a : Word) (inside : Bool) (s : SimdState),
    AtChunk memory a m inside s →
    ∃ last reads, Steps simdCountWordStarts s last ∧ last.pc = 66 ∧ last.memory = memory ∧
      last.registers .rax = s.registers .rax + BitVec.ofNat 64
        (runStarts isWhitespace inside (byteText memory a m)) ∧
      last.reads = s.reads ++ reads ∧ Within a m reads := by
  induction m using Nat.strongRecOn with
  | ind m ih =>
    intro a inside s h
    rcases Nat.lt_or_ge m 16 with hFew | hEnough
    · have hBelow : (s.registers .rdx).ult 16 = true := by
        rw [BitVec.ult, decide_eq_true_eq, h.length]
        exact hFew
      obtain ⟨t, hRun, hMemory, hReads, hPc, hSame⟩ := words_tail h.pc hBelow
      rcases m with _ | m
      · have hNone : s.registers .rdx = 0 := eq_of_toNat_eq h.length
        rw [if_pos hNone] at hPc
        refine ⟨t, [], hRun, hPc, hMemory.trans h.memory, ?_, ?_, ?_⟩
        · rw [hSame]
          exact (BitVec.add_zero _).symm
        · rw [hReads, append_nil]
        · exact fun access hMem => absurd hMem not_mem_nil
      · have hSome : s.registers .rdx ≠ 0 := by
          intro hNone
          have hLength := h.length
          rw [hNone] at hLength
          cases hLength
        rw [if_neg hSome] at hPc
        obtain ⟨last, reads, hSteps, hEnd, hLast, hSum, hRest, hWithin⟩ :=
          words_tail_loop m a inside t hPc (hMemory.trans h.memory) (by rw [hSame, h.place])
            (by rw [hSame, h.length]) (by rw [SimdState.low, hSame]; exact h.carry)
        exact ⟨last, reads, hRun.trans hSteps, hEnd, hLast, by rw [hSum, hSame],
          by rw [hRest, hReads], hWithin⟩
    · obtain ⟨k, rfl⟩ := Nat.exists_eq_add_of_le hEnough
      obtain ⟨t, hRun, hNext, hReads, hCount⟩ := h.next
      obtain ⟨last, reads, hSteps, hEnd, hLast, hSum, hRest, hWithin⟩ :=
        ih k (by omega) _ _ t hNext
      refine ⟨last, (a, 16) :: reads, hRun.trans hSteps, hEnd, hLast, ?_, ?_, ?_⟩
      · rw [hSum, hCount, byteText_add, runStarts_append, BitVec.ofNat_add, BitVec.add_assoc]
      · rw [hRest, hReads, List.append_assoc]
        rfl
      · exact (within_first (Nat.le_add_right 16 k)).append hWithin.behind

theorem words_kernel (hPc : s.pc = 0) (hReads : s.reads = []) :
    ∃ last, Halts simdCountWordStarts s last ∧ last.memory = s.memory ∧
      last.registers .rax = s.registers .rax + BitVec.ofNat 64
        (runs isWhitespace (byteText s.memory (s.registers .rcx) (s.registers .rdx).toNat)) ∧
      Within (s.registers .rcx) (s.registers .rdx).toNat last.reads := by
  obtain ⟨t, hRun, hPc', hMemory, hReads', hCount, hPlace, hLength, hCarry, hSpace, hTab, hFeed,
    hReturn⟩ := words_start hPc
  obtain ⟨last, reads, hSteps, hEnd, hLast, hSum, hRest, hWithin⟩ :=
    words_loop (s.registers .rdx).toNat (s.registers .rcx) false t
      ⟨hPc', hMemory, hPlace, by rw [hLength], hCarry, hSpace, hTab, hFeed, hReturn⟩
  refine ⟨last, ⟨Steps.trans ⟨13, hRun⟩ hSteps, ?_⟩, hLast, ?_, ?_⟩
  · rw [hEnd]
    rfl
  · rw [hSum, hCount, runStarts_eq_runs]
  · rw [hRest, hReads', hReads]
    exact hWithin

theorem not_counts_words (hPc : s.pc = 0) (hNegative : (s.registers .rdx).toInt < 0)
    : ¬ CountsWords s := by
  rintro ⟨last, hHalts, -, -, hWithin⟩
  obtain ⟨t, hRun, hPc', -, -, -, -, hLength, -⟩ := words_start hPc
  have hEnough : (t.registers .rdx).ult 16 = false := by
    have hSixteen : (16 : Word).toNat = 16 := rfl
    rw [hLength, BitVec.ult, decide_eq_false_iff_not, hSixteen]
    rw [toInt_eq_toNat_cond] at hNegative
    split at hNegative <;> omega
  obtain ⟨u, hRun', -, -, hRead, -⟩ := words_vector hPc' hEnough
  obtain ⟨n, rfl⟩ := hHalts.after (Steps.trans ⟨13, hRun⟩ ⟨32, hRun'⟩)
  obtain ⟨k, hk, -⟩ := hWithin (t.registers .rcx, 16)
    (simdRun_reads n u (by rw [hRead]; exact mem_append_right _ mem_cons_self)) 0
    (Nat.zero_lt_succ 15)
  omega

end Loops

theorem counts_words (hPc : s.pc = 0) (hReads : s.reads = [])
    (hLength : 0 ≤ (s.registers .rdx).toInt) : CountsWords s := by
  have hSame : (s.registers .rdx).toInt.toNat = (s.registers .rdx).toNat := by
    rw [toInt_eq_toNat_cond] at hLength ⊢
    have := (s.registers .rdx).isLt
    split <;> omega
  obtain ⟨last, hHalts, hMemory, hSum, hWithin⟩ := words_kernel hPc hReads
  rw [← hSame] at hSum hWithin
  exact ⟨last, hHalts, hSum, hMemory, hWithin⟩

/-- **The word count kernel.** It counts the words of the buffer, and reads nothing else, if and
only if the length is not negative. -/
theorem simd_words_iff {s : SimdState} (hPc : s.pc = 0) (hReads : s.reads = []) :
    CountsWords s ↔ 0 ≤ (s.registers .rdx).toInt := by
  refine ⟨fun hCounts => ?_, counts_words hPc hReads⟩
  by_contra hNegative
  exact not_counts_words hPc (Int.not_le.mp hNegative) hCounts

-- ---
-- Two lengths
-- ---

def wordsStart (length : Word) : SimdState where
  registers register :=
    if register = .rcx then 4096 else if register = .rdx then length else 0
  lanes _ _ := 0
  memory _ := 97
  flags := ⟨false, false, false⟩
  reads := []
  pc := 0

theorem simd_words_iff_twenty : CountsWords (wordsStart 20) :=
  (simd_words_iff rfl rfl).mpr (by decide)

/-- **The length -1.** The kernel reads, where the loop would not have run. -/
theorem words_of_minus_one : ¬ CountsWords (wordsStart (-1)) :=
  not_counts_words rfl (by decide)

end Mettle.Codegen
