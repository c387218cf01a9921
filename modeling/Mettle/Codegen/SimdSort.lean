import Mettle.Codegen.SimdMachine
import Mettle.Lib.Insertion

/-!
# Mettle — the insertion sort kernel

The code of `IR_OP_SIMD_INSERTION_SORT_I32`. The elements in front of the index are sorted; the one
at it is kept in `r9`, and the greater ones in front of it move one place on. The scan ends below
the base, which it finds by an unsigned comparison of addresses: an array in the first four bytes of
the address space has no address below its base by four, and the scan goes on behind the end of the
address space.
-/

namespace Mettle.Codegen

open Mettle.Lib List BitVec

/-- `code_generator_binary_emit_simd_insertion_sort_i32`, behind the loads of its operands: `rcx` is
the base, `r8d` the length, `edx` the index, `r9d` the key, `r10` the place of the scan and `r11d`
the element there. -/
def simdInsertionSortI32 : List Simd :=
  [.xorSelf32 .rdx, .addImm .rdx 1,
   -- outer_loop
   .cmp32 .rdx .r8, .jump .greaterEqual 19,
   .lea .rax .rcx .rdx 4, .load32 .r9 .rax, .mov .r10 .rax, .addImm .r10 (-4),
   -- inner_loop
   .cmp .r10 .rcx, .jump .below 16, .load32 .r11 .r10, .cmp32 .r11 .r9, .jump .lessEqual 16,
   .store32At .r10 4 .r11, .addImm .r10 (-4), .jump .always 8,
   -- j_insert_from_bound, j_insert_from_le
   .store32At .r10 4 .r9, .addImm .rdx 1, .jump .always 2]

attribute [local simp] simdInsertionSortI32

-- ---
-- Elements
-- ---

/-- The first `n` elements of the array at `base`. -/
def elements (memory : ByteMemory) (base : Word) (n : Nat) : List (BitVec 32) :=
  (List.range n).map (element memory base)

/-- The kernel ends with the elements in order, has read and written nothing but them, and has
changed nothing where there are less than two. -/
def SortsElements (s : SimdState) : Prop :=
  ∃ last writes, StepsWriting simdInsertionSortI32 s last writes ∧
    simdInsertionSortI32[last.pc]? = none ∧
    (elements last.memory (s.registers .rcx) (s.low .r8).toInt.toNat).Perm
      (elements s.memory (s.registers .rcx) (s.low .r8).toInt.toNat) ∧
    (elements last.memory (s.registers .rcx) (s.low .r8).toInt.toNat).Pairwise
      (fun a b => a.toInt ≤ b.toInt) ∧
    Within (s.registers .rcx) (4 * (s.low .r8).toInt.toNat) (last.reads ++ writes) ∧
    ((s.low .r8).toInt ≤ 1 → last.memory = s.memory)

variable {base : Word}

section Elements

variable {memory : ByteMemory} {n : Nat}

@[simp]
theorem elements_length : (elements memory base n).length = n := by
  simp [elements]

theorem elements_getElem {i : Nat} (hi : i < (elements memory base n).length) :
    (elements memory base n)[i] = element memory base i := by
  simp [elements]

theorem element_write (hRoom : 4 * n ≤ 2 ^ 64) {hole i : Nat} (hHole : hole < n) (hi : i < n)
    (v : BitVec 32) :
    element (writeLE memory (base + BitVec.ofNat 64 (4 * hole)) 4 v.toNat) base i =
      if i = hole then v else element memory base i := by
  rw [element, word32]
  split
  · rename_i hSame
    have hWord : v.toNat < 256 ^ 4 := v.isLt
    rw [hSame, readLE_writeLE _ _ (by omega), Nat.mod_eq_of_lt hWord, ofNat_toNat, setWidth_eq]
  · rename_i hOther
    congr 1
    refine readLE_congr fun k hk => writeLE_of_outside ?_
    simp only [toNat_sub, toNat_add, toNat_ofNat]
    omega

theorem elements_write (hRoom : 4 * n ≤ 2 ^ 64) {hole : Nat} (hHole : hole < n) (v : BitVec 32) :
    elements (writeLE memory (base + BitVec.ofNat 64 (4 * hole)) 4 v.toNat) base n =
      (elements memory base n).set hole v := by
  refine ext_getElem (by simp) fun i hi hi' => ?_
  rw [elements_length] at hi
  rw [getElem_set, elements_getElem, element_write hRoom hHole hi, elements_getElem]
  simp only [eq_comm]

theorem element_of_append {front rest : List (BitVec 32)} {x : BitVec 32}
    (h : elements memory base n = front ++ x :: rest) :
    front.length < n ∧ element memory base front.length = x := by
  have hRoom : front.length < n := by
    have hLength := congrArg length h
    rw [elements_length, length_append, length_cons] at hLength
    omega
  refine ⟨hRoom, ?_⟩
  rw [← elements_getElem (by rwa [elements_length])]
  simp [h]

theorem elements_write_append (hRoom : 4 * n ≤ 2 ^ 64) {front rest : List (BitVec 32)}
    {x : BitVec 32} (h : elements memory base n = front ++ x :: rest) (v : BitVec 32) :
    elements (writeLE memory (base + BitVec.ofNat 64 (4 * front.length)) 4 v.toNat) base n =
      front ++ v :: rest := by
  rw [elements_write hRoom (element_of_append h).1, h, set_append_right _ _ (Nat.le_refl _),
    Nat.sub_self, set_cons_zero]

theorem within_element {i : Nat} (hi : i < n) :
    Within base (4 * n) [(base + BitVec.ofNat 64 (4 * i), 4)] := by
  rintro access hMem j hj
  obtain rfl := mem_singleton.mp hMem
  exact ⟨4 * i + j, by simp only at hj; omega, by rw [BitVec.add_assoc, ← BitVec.ofNat_add]⟩

end Elements

-- ---
-- The blocks
-- ---

variable {s : SimdState}

section Blocks

theorem back_four (w : Word) : w + BitVec.ofInt 64 (-4) = w - 4 := by
  rw [sub_eq_add_neg]
  exact congrArg (w + ·) (by decide)

theorem lessEqual_flags (a b : BitVec 32) : (a.slt b || a == b) = !b.slt a := by
  rw [Bool.eq_iff_iff]
  simp only [Bool.or_eq_true, beq_iff_eq, Bool.not_eq_true',
    slt_eq_decide, decide_eq_false_iff_not, not_lt, decide_eq_true_eq]
  rw [← toInt_inj]
  omega

theorem sort_start (hPc : s.pc = 0) :
    StepsWriting simdInsertionSortI32 s { s.set .rdx 1 with pc := 2 } [] := by
  obtain ⟨registers, lanes, memory, flags, reads, pc⟩ := s
  obtain rfl : pc = 0 := hPc
  refine ⟨2, ?_⟩
  simp

theorem sort_done (hPc : s.pc = 2) (hDone : (s.low .rdx).slt (s.low .r8) = false) :
    StepsWriting simdInsertionSortI32 s
      { s with flags := compareWords (s.low .rdx) (s.low .r8), pc := 19 } [] := by
  obtain ⟨registers, lanes, memory, flags, reads, pc⟩ := s
  obtain rfl : pc = 2 := hPc
  have h : ((registers .rdx).setWidth 32).slt ((registers .r8).setWidth 32) = false := hDone
  refine ⟨2, ?_⟩
  simp [h]

theorem sort_next (hPc : s.pc = 2) (hMore : (s.low .rdx).slt (s.low .r8) = true) :
    ∃ t, StepsWriting simdInsertionSortI32 s t [] ∧ t.pc = 8 ∧ t.memory = s.memory ∧
      t.registers .rcx = s.registers .rcx ∧ t.registers .rdx = s.registers .rdx ∧
      t.registers .r8 = s.registers .r8 ∧
      t.low .r9 = word32 s.memory (s.registers .rcx + s.registers .rdx * 4) ∧
      t.registers .r10 = s.registers .rcx + s.registers .rdx * 4 - 4 ∧
      t.reads = s.reads ++ [(s.registers .rcx + s.registers .rdx * 4, 4)] := by
  obtain ⟨registers, lanes, memory, flags, reads, pc⟩ := s
  obtain rfl : pc = 2 := hPc
  have h : ((registers .rdx).setWidth 32).slt ((registers .r8).setWidth 32) = true := hMore
  refine ⟨_, ⟨6, rfl, ?_⟩, ?_⟩
  · simp [h]
  · simp [h]
    exact back_four _

theorem sort_insert_bound (hPc : s.pc = 8)
    (hBound : (s.registers .r10).ult (s.registers .rcx) = true) :
    ∃ t, StepsWriting simdInsertionSortI32 s t [(s.registers .r10 + 4, 4)] ∧ t.pc = 2 ∧
      t.memory = writeLE s.memory (s.registers .r10 + 4) 4 (s.low .r9).toNat ∧
      t.registers .rcx = s.registers .rcx ∧ t.registers .rdx = s.registers .rdx + 1 ∧
      t.registers .r8 = s.registers .r8 ∧ t.reads = s.reads := by
  obtain ⟨registers, lanes, memory, flags, reads, pc⟩ := s
  obtain rfl : pc = 8 := hPc
  have h : (registers .r10).ult (registers .rcx) = true := hBound
  refine ⟨_, ⟨5, rfl, ?_⟩, ?_⟩
  · simp [h]
  · simp [h]

section

variable (hPc : s.pc = 8) (hBound : (s.registers .r10).ult (s.registers .rcx) = false)
include hPc hBound

theorem sort_insert_stop (hStop : (s.low .r9).slt (word32 s.memory (s.registers .r10)) = false) :
    ∃ t, StepsWriting simdInsertionSortI32 s t [(s.registers .r10 + 4, 4)] ∧ t.pc = 2 ∧
      t.memory = writeLE s.memory (s.registers .r10 + 4) 4 (s.low .r9).toNat ∧
      t.registers .rcx = s.registers .rcx ∧ t.registers .rdx = s.registers .rdx + 1 ∧
      t.registers .r8 = s.registers .r8 ∧
      t.reads = s.reads ++ [(s.registers .r10, 4)] := by
  obtain ⟨registers, lanes, memory, flags, reads, pc⟩ := s
  obtain rfl : pc = 8 := hPc
  have h : (registers .r10).ult (registers .rcx) = false := hBound
  have h' : ((registers .r9).setWidth 32).slt (word32 memory (registers .r10)) = false := hStop
  refine ⟨_, ⟨8, rfl, ?_⟩, ?_⟩
  · simp [lessEqual_flags, h, h']
  · simp [lessEqual_flags, h, h']

theorem sort_shift (hGreater : (s.low .r9).slt (word32 s.memory (s.registers .r10)) = true) :
    ∃ t, StepsWriting simdInsertionSortI32 s t [(s.registers .r10 + 4, 4)] ∧ t.pc = 8 ∧
      t.memory = writeLE s.memory (s.registers .r10 + 4) 4
        (word32 s.memory (s.registers .r10)).toNat ∧
      t.registers .rcx = s.registers .rcx ∧ t.registers .rdx = s.registers .rdx ∧
      t.registers .r8 = s.registers .r8 ∧ t.low .r9 = s.low .r9 ∧
      t.registers .r10 = s.registers .r10 - 4 ∧
      t.reads = s.reads ++ [(s.registers .r10, 4)] := by
  obtain ⟨registers, lanes, memory, flags, reads, pc⟩ := s
  obtain rfl : pc = 8 := hPc
  have h : (registers .r10).ult (registers .rcx) = false := hBound
  have h' : ((registers .r9).setWidth 32).slt (word32 memory (registers .r10)) = true := hGreater
  refine ⟨_, ⟨8, rfl, ?_⟩, ?_⟩
  · simp [lessEqual_flags, h, h']
  · simp [lessEqual_flags, h, h']
    exact back_four _

end

end Blocks

-- ---
-- The scan
-- ---

/-- At the outer loop: the index, and the elements as they are now. -/
structure AtKey (base : Word) (n i : Nat) (values : List (BitVec 32)) (s : SimdState) : Prop where
  pc : s.pc = 2
  array : s.registers .rcx = base
  length : (s.low .r8).toInt = n
  index : s.registers .rdx = BitVec.ofNat 64 i
  values : elements s.memory base n = values
  reads : Within base (4 * n) s.reads

/-- At the inner loop: the place behind `front` is the hole, and the scan is in front of it. -/
structure Scanning (base : Word) (n i : Nat) (key : BitVec 32) (front rest : List (BitVec 32))
    (s : SimdState) : Prop where
  pc : s.pc = 8
  array : s.registers .rcx = base
  length : (s.low .r8).toInt = n
  index : s.registers .rdx = BitVec.ofNat 64 i
  key : s.low .r9 = key
  scan : s.registers .r10 = base + BitVec.ofNat 64 (4 * front.length) - 4
  values : ∃ hole, elements s.memory base n = front ++ hole :: rest
  reads : Within base (4 * n) s.reads

section Scan

variable {n i : Nat} {key a : BitVec 32} {front rest : List (BitVec 32)}
  {t : SimdState} {writes : List (Word × Nat)}

theorem ofNat_succ (i : Nat) : BitVec.ofNat 64 (i + 1) = BitVec.ofNat 64 i + 1 :=
  ofNat_add i 1

theorem Scanning.hole (h : Scanning base n i key front rest s) :
    s.registers .r10 + 4 = base + BitVec.ofNat 64 (4 * front.length) := by
  rw [h.scan, sub_add_cancel]

theorem four_toNat : (4 : Word).toNat = 4 := rfl

theorem Scanning.scan_nil (h : Scanning base n i key [] rest s) : s.registers .r10 = base - 4 := by
  rw [h.scan]
  exact congrArg (· - 4) (BitVec.add_zero base)

section

variable (hRoom : base.toNat + 4 * n ≤ 2 ^ 64)
include hRoom

theorem Scanning.scanned (h : Scanning base n i key (front ++ [a]) rest s) :
    s.registers .r10 = base + BitVec.ofNat 64 (4 * front.length) ∧
      (s.registers .r10).ult (s.registers .rcx) = false ∧
      word32 s.memory (s.registers .r10) = a ∧ front.length < n := by
  obtain ⟨hole, hValues⟩ := h.values
  rw [List.append_assoc] at hValues
  obtain ⟨hIn, hElement⟩ := element_of_append hValues
  have hScan : s.registers .r10 = base + BitVec.ofNat 64 (4 * front.length) := by
    rw [h.scan, List.length_append, List.length_singleton, Nat.mul_add, BitVec.ofNat_add,
      ← BitVec.add_assoc]
    exact BitVec.add_sub_cancel _ _
  refine ⟨hScan, ?_, ?_, hIn⟩
  · rw [hScan, h.array, BitVec.ult, decide_eq_false_iff_not, BitVec.toNat_add, BitVec.toNat_ofNat]
    omega
  · rw [hScan]
    exact hElement

theorem Scanning.insert (h : Scanning base n i key front rest s) (hPc : t.pc = 2)
    (hMemory : t.memory = writeLE s.memory (s.registers .r10 + 4) 4 (s.low .r9).toNat)
    (hArray : t.registers .rcx = s.registers .rcx)
    (hIndex : t.registers .rdx = s.registers .rdx + 1) (hLength : t.registers .r8 = s.registers .r8)
    (hReads : Within base (4 * n) t.reads) :
    AtKey base n (i + 1) (front ++ key :: rest) t ∧
      Within base (4 * n) [(s.registers .r10 + 4, 4)] := by
  obtain ⟨hole, hValues⟩ := h.values
  refine ⟨⟨hPc, hArray.trans h.array, ?_, ?_, ?_, hReads⟩, ?_⟩
  · rw [SimdState.low, hLength]
    exact h.length
  · rw [hIndex, h.index, ofNat_succ]
  · rw [hMemory, h.hole, h.key]
    exact elements_write_append (by omega) hValues key
  · rw [h.hole]
    exact within_element (element_of_append hValues).1

theorem scan_bound (hBase : 4 ≤ base.toNat) (h : Scanning base n i key [] rest s) :
    ∃ t writes, StepsWriting simdInsertionSortI32 s t writes ∧
      AtKey base n (i + 1) (key :: rest) t ∧ Within base (4 * n) writes := by
  have hBound : (s.registers .r10).ult (s.registers .rcx) = true := by
    rw [h.scan_nil, h.array, BitVec.ult, decide_eq_true_eq, BitVec.toNat_sub, four_toNat]
    omega
  obtain ⟨t, hRun, hPc, hMemory, hArray, hIndex, hLength, hReads⟩ :=
    sort_insert_bound h.pc hBound
  exact ⟨t, _, hRun, h.insert hRoom hPc hMemory hArray hIndex hLength (hReads ▸ h.reads)⟩

theorem scan_stop (hStop : a.toInt ≤ key.toInt) (h : Scanning base n i key (front ++ [a]) rest s) :
    ∃ t writes, StepsWriting simdInsertionSortI32 s t writes ∧
      AtKey base n (i + 1) (front ++ a :: key :: rest) t ∧ Within base (4 * n) writes := by
  obtain ⟨hScan, hBound, hElement, hIn⟩ := h.scanned hRoom
  have hKey : (s.low .r9).slt (word32 s.memory (s.registers .r10)) = false := by
    rw [h.key, hElement, BitVec.slt_eq_decide, decide_eq_false_iff_not]
    omega
  obtain ⟨t, hRun, hPc, hMemory, hArray, hIndex, hLength, hReads⟩ :=
    sort_insert_stop h.pc hBound hKey
  have hWithin : Within base (4 * n) t.reads := by
    rw [hReads, hScan]
    exact h.reads.append (within_element hIn)
  obtain ⟨hAt, hWrites⟩ := h.insert hRoom hPc hMemory hArray hIndex hLength hWithin
  rw [List.append_assoc] at hAt
  exact ⟨t, _, hRun, hAt, hWrites⟩

theorem scan_shift (hGreater : key.toInt < a.toInt)
    (h : Scanning base n i key (front ++ [a]) rest s) :
    ∃ t writes, StepsWriting simdInsertionSortI32 s t writes ∧
      Scanning base n i key front (a :: rest) t ∧ Within base (4 * n) writes := by
  obtain ⟨hScan, hBound, hElement, hIn⟩ := h.scanned hRoom
  have hKey : (s.low .r9).slt (word32 s.memory (s.registers .r10)) = true := by
    rw [h.key, hElement, slt_eq_decide, decide_eq_true_eq]
    exact hGreater
  obtain ⟨t, hRun, hPc, hMemory, hArray, hIndex, hLength, hKey', hPlace, hReads⟩ :=
    sort_shift h.pc hBound hKey
  obtain ⟨hole, hValues⟩ := h.values
  refine ⟨t, _, hRun, ⟨hPc, hArray.trans h.array, ?_, hIndex.trans h.index, hKey'.trans h.key, ?_,
    ⟨a, ?_⟩, ?_⟩, ?_⟩
  · rw [SimdState.low, hLength]
    exact h.length
  · rw [hPlace, hScan]
  · rw [hMemory, h.hole, hElement, elements_write_append (by omega) hValues, List.append_assoc]
    rfl
  · rw [hReads, hScan]
    exact h.reads.append (within_element hIn)
  · rw [h.hole]
    exact within_element (element_of_append hValues).1

theorem scan_inserts (hEnds : 4 ≤ base.toNat ∨ ∃ a ∈ front, a.toInt ≤ key.toInt)
    (h : Scanning base n i key front rest s) :
    ∃ t writes, StepsWriting simdInsertionSortI32 s t writes ∧
      AtKey base n (i + 1) (insertBack BitVec.toInt key front ++ rest) t ∧
      Within base (4 * n) writes := by
  induction front using reverseRecOn generalizing rest s with
  | nil =>
    have hBase : 4 ≤ base.toNat := hEnds.resolve_right fun ⟨a, hMem, _⟩ => not_mem_nil hMem
    exact scan_bound hRoom hBase h
  | append_singleton front a ih =>
    rcases lt_or_ge key.toInt a.toInt with hGreater | hStop
    · obtain ⟨t, first, hRun, hScanning, hFirst⟩ := scan_shift hRoom hGreater h
      have hEnds' : 4 ≤ base.toNat ∨ ∃ a ∈ front, a.toInt ≤ key.toInt := by
        refine hEnds.imp_right ?_
        rintro ⟨b, hMem, hb⟩
        rcases mem_append.mp hMem with hFront | hLast
        · exact ⟨b, hFront, hb⟩
        · obtain rfl := mem_singleton.mp hLast
          omega
      obtain ⟨u, second, hRest, hAt, hSecond⟩ := ih hEnds' hScanning
      rw [insertBack_shift hGreater, List.append_assoc]
      exact ⟨u, _, hRun.trans hRest, hAt, hFirst.append hSecond⟩
    · rw [insertBack_stop hStop, List.append_assoc]
      exact scan_stop hRoom hStop h

/-- In the first four bytes, the scan goes on below the base when all elements are greater. -/
theorem scan_wraps (hBase : base.toNat < 4) (hGreater : ∀ a ∈ front, key.toInt < a.toInt)
    (h : Scanning base n i key front rest s) :
    ∃ t, Steps simdInsertionSortI32 s t ∧ (base - 4, 4) ∈ t.reads := by
  induction front using reverseRecOn generalizing rest s with
  | nil =>
    have hBound : (s.registers .r10).ult (s.registers .rcx) = false := by
      rw [h.scan_nil, h.array, BitVec.ult, decide_eq_false_iff_not, BitVec.toNat_sub, four_toNat]
      omega
    rcases hKey : (s.low .r9).slt (word32 s.memory (s.registers .r10)) with _ | _
    · obtain ⟨t, hRun, -, -, -, -, -, hReads⟩ := sort_insert_stop h.pc hBound hKey
      exact ⟨t, hRun.steps, by simp [hReads, h.scan_nil]⟩
    · obtain ⟨t, hRun, -, -, -, -, -, -, -, hReads⟩ := sort_shift h.pc hBound hKey
      exact ⟨t, hRun.steps, by simp [hReads, h.scan_nil]⟩
  | append_singleton front a ih =>
    obtain ⟨t, _, hRun, hScanning, -⟩ := scan_shift hRoom (hGreater a (by simp)) h
    obtain ⟨u, hRest, hRead⟩ := ih (fun b hb => hGreater b (mem_append_left _ hb)) hScanning
    exact ⟨u, hRun.steps.trans hRest, hRead⟩

end

end Scan

-- ---
-- The rounds
-- ---

section Rounds

variable {n i : Nat} {key : BitVec 32} {front rest : List (BitVec 32)} {t : SimdState}

theorem AtKey.low_index {values : List (BitVec 32)} (hLe : i ≤ n) (h : AtKey base n i values s) :
    (s.low .rdx).toInt = i := by
  have hSmall : (n : Int) < 2 ^ 31 := h.length ▸ toInt_lt
  have hLow : (s.low .rdx).toNat = i := by
    rw [SimdState.low, h.index, toNat_setWidth, toNat_ofNat]
    omega
  rw [toInt_eq_toNat_of_lt (by omega), hLow]

theorem AtKey.next (hIn : i < n) (hFront : front.length = i)
    (h : AtKey base n i (front ++ key :: rest) s) :
    ∃ t, StepsWriting simdInsertionSortI32 s t [] ∧ Scanning base n i key front rest t := by
  have hMore : (s.low .rdx).slt (s.low .r8) = true := by
    rw [BitVec.slt_eq_decide, h.low_index hIn.le, h.length, decide_eq_true_eq]
    exact Int.ofNat_lt.mpr hIn
  have hPlace : s.registers .rcx + s.registers .rdx * 4 = base + BitVec.ofNat 64 (4 * i) := by
    rw [h.array, h.index, Nat.mul_comm, BitVec.ofNat_mul]
    rfl
  obtain ⟨t, hRun, hPc, hMemory, hArray, hIndex', hLength, hKey, hScan, hReads⟩ :=
    sort_next h.pc hMore
  obtain ⟨-, hElement⟩ := element_of_append h.values
  refine ⟨t, hRun, hPc, hArray.trans h.array, ?_, hIndex'.trans h.index, ?_, ?_, ⟨key, ?_⟩, ?_⟩
  · rw [SimdState.low, hLength]
    exact h.length
  · rw [hKey, hPlace, ← hFront]
    exact hElement
  · rw [hScan, hPlace, hFront]
  · rw [hMemory]
    exact h.values
  · rw [hReads, hPlace]
    exact h.reads.append (within_element hIn)

theorem sort_rounds (hPc : s.pc = 0) (hReads : s.reads = []) (hArray : s.registers .rcx = base)
    (hLength : (s.low .r8).toInt = n) (hRoom : base.toNat + 4 * n ≤ 2 ^ 64) (hPos : 1 ≤ i)
    (hLe : i ≤ n)
    (hEnds : 4 ≤ base.toNat ∨
      ∀ j < i, (element s.memory base 0).toInt ≤ (element s.memory base j).toInt) :
    ∃ t writes, StepsWriting simdInsertionSortI32 s t writes ∧
      AtKey base n i (insertAll BitVec.toInt ((elements s.memory base n).take i) ++
        (elements s.memory base n).drop i) t ∧ Within base (4 * n) writes := by
  induction i, hPos using Nat.le_induction with
  | base =>
    obtain ⟨first, rest, hValues⟩ := exists_cons_of_length_pos
      (l := elements s.memory base n) (by rw [elements_length]; omega)
    refine ⟨_, [], sort_start hPc, ⟨rfl, hArray, hLength, rfl, ?_, ?_⟩, ?_⟩
    · show elements s.memory base n = _
      rw [hValues]
      rfl
    · rw [SimdState.set, hReads]
      exact fun access hMem => absurd hMem not_mem_nil
    · exact fun access hMem => absurd hMem not_mem_nil
  | succ i hPos ih =>
    obtain ⟨t, first, hRun, hAt, hFirst⟩ :=
      ih (by omega) (hEnds.imp_right fun h j hj => h j (by omega))
    have hIn : i < (elements s.memory base n).length := by rwa [elements_length]
    have hFront : (insertAll BitVec.toInt ((elements s.memory base n).take i)).length = i := by
      rw [insertAll_perm.length_eq, length_take]
      omega
    rw [drop_eq_getElem_cons hIn, elements_getElem] at hAt
    obtain ⟨u, hNext, hScanning⟩ := hAt.next (by omega) hFront
    have hStops : 4 ≤ base.toNat ∨ ∃ a ∈ insertAll BitVec.toInt ((elements s.memory base n).take i),
          a.toInt ≤ (element s.memory base i).toInt := by
      refine hEnds.imp_right fun h => ⟨element s.memory base 0, ?_, h i (by omega)⟩
      rw [insertAll_perm.mem_iff, mem_take_iff_getElem]
      exact ⟨0, by omega, elements_getElem _⟩
    obtain ⟨v, second, hScan, hAt', hSecond⟩ := scan_inserts hRoom hStops hScanning
    refine ⟨v, _, hRun.trans (hNext.trans hScan), ?_, hFirst.append hSecond⟩
    rw [take_succ_eq_append_getElem hIn, elements_getElem, insertAll_concat]
    exact hAt'

end Rounds

section

variable (hPc : s.pc = 0) (hReads : s.reads = [])
  (hRoom : (s.registers .rcx).toNat + 4 * (s.low .r8).toInt.toNat ≤ 2 ^ 64)
include hPc hReads hRoom

theorem sorts_elements
    (hEnds : 4 ≤ (s.registers .rcx).toNat ∨ (s.low .r8).toInt ≤ 1 ∨ ∀ i < (s.low .r8).toInt.toNat,
      (element s.memory (s.registers .rcx) 0).toInt ≤ (element s.memory (s.registers .rcx) i).toInt)
    :
    SortsElements s := by
  rcases le_or_gt (s.low .r8).toInt 1 with hFew | hMany
  · have hDone : (({ s.set .rdx 1 with pc := 2 } : SimdState).low .rdx).slt
        (({ s.set .rdx 1 with pc := 2 } : SimdState).low .r8) = false := by
      rw [slt_eq_decide, decide_eq_false_iff_not]
      exact not_lt.mpr hFew
    have hNone : ∀ {base : Word} {n : Nat}, Within base (4 * n) (s.reads ++ []) := by
      intro base n access hMem
      rw [hReads] at hMem
      exact absurd hMem not_mem_nil
    refine ⟨_, _, (sort_start hPc).trans (sort_done rfl hDone), rfl, List.Perm.refl _, ?_, hNone,
      fun _ => rfl⟩
    refine pairwise_iff_getElem.mpr fun i j hi hj hLess => ?_
    rw [elements_length] at hj
    omega
  · have hLength : (s.low .r8).toInt = ((s.low .r8).toInt.toNat : Int) := by omega
    obtain ⟨t, writes, hRun, hAt, hWrites⟩ := sort_rounds hPc hReads rfl hLength hRoom
      (i := (s.low .r8).toInt.toNat) (by omega) (Nat.le_refl _)
      (hEnds.imp_right fun h => h.resolve_left (by omega))
    have hDone : (t.low .rdx).slt (t.low .r8) = false := by
      rw [slt_eq_decide, hAt.low_index (Nat.le_refl _), hAt.length, decide_eq_false_iff_not]
      exact lt_irrefl _
    have hEnd := sort_done hAt.pc hDone
    have hSorted : elements t.memory (s.registers .rcx) (s.low .r8).toInt.toNat =
        insertAll BitVec.toInt (elements s.memory (s.registers .rcx) (s.low .r8).toInt.toNat) := by
      rw [hAt.values, take_of_length_le (by simp), drop_of_length_le (by simp), append_nil]
    refine ⟨_, _, hRun.trans hEnd, rfl, ?_, ?_, ?_, fun hFew => absurd hFew (by omega)⟩
    · show (elements t.memory _ _).Perm _
      rw [hSorted]
      exact insertAll_perm
    · show (elements t.memory _ _).Pairwise _
      rw [hSorted]
      exact insertAll_sorted
    · exact hAt.reads.append (by rwa [append_nil])

/-- An element that is less than the first one, in the first four bytes of the address space. -/
theorem not_sorts_elements (hBase : (s.registers .rcx).toNat < 4)
    (hLess : ∃ i < (s.low .r8).toInt.toNat, (element s.memory (s.registers .rcx) i).toInt < (element
      s.memory (s.registers .rcx) 0).toInt) :
    ¬ SortsElements s := by
  classical
  rintro ⟨last, writes, hSteps, hEnd, -, -, hWithin, -⟩
  -- the first of them
  obtain ⟨hIn, hKey⟩ := Nat.find_spec hLess
  have hFirst : ∀ j < Nat.find hLess, (element s.memory (s.registers .rcx) 0).toInt ≤
      (element s.memory (s.registers .rcx) j).toInt := fun j hj =>
    not_lt.mp fun hLower => Nat.find_min hLess hj ⟨hj.trans hIn, hLower⟩
  have hPos : 1 ≤ Nat.find hLess := by
    by_contra hZero
    have hSame : Nat.find hLess = 0 := by omega
    rw [hSame] at hKey
    exact lt_irrefl _ hKey
  generalize Nat.find hLess = i at hIn hKey hFirst hPos
  obtain ⟨t, first, hRun, hAt, -⟩ := sort_rounds hPc hReads rfl
    (show (s.low .r8).toInt = ((s.low .r8).toInt.toNat : Int) by omega) hRoom hPos hIn.le
    (Or.inr hFirst)
  have hLength : i < (elements s.memory (s.registers .rcx) (s.low .r8).toInt.toNat).length := by
    rwa [elements_length]
  rw [List.drop_eq_getElem_cons hLength, elements_getElem] at hAt
  obtain ⟨u, hNext, hScanning⟩ := hAt.next hIn (by
    rw [insertAll_perm.length_eq, List.length_take]
    omega)
  have hGreater : ∀ a ∈ insertAll BitVec.toInt ((elements s.memory (s.registers .rcx)
      (s.low .r8).toInt.toNat).take i),
      (element s.memory (s.registers .rcx) i).toInt < a.toInt := by
    intro a hMem
    rw [insertAll_perm.mem_iff, List.mem_take_iff_getElem] at hMem
    obtain ⟨j, hj, rfl⟩ := hMem
    rw [elements_getElem]
    exact hKey.trans_le (hFirst j (by omega))
  obtain ⟨v, hScan, hRead⟩ := scan_wraps hRoom hBase hGreater hScanning
  obtain ⟨n, rfl⟩ := Halts.after ⟨hSteps.steps, hEnd⟩ ((hRun.steps.trans hNext.steps).trans hScan)
  -- what the scan has read is none of the elements
  obtain ⟨k, hk, hSame⟩ := hWithin (s.registers .rcx - 4, 4)
    (List.mem_append_left _ (simdRun_reads n v hRead)) 0 (Nat.zero_lt_succ 3)
  have hBytes := congrArg BitVec.toNat hSame
  have hSmall : (s.low .r8).toInt < 2 ^ 31 := BitVec.toInt_lt
  simp only [BitVec.toNat_add, BitVec.toNat_sub, BitVec.toNat_ofNat, four_toNat] at hBytes
  omega

end

/-- **The insertion sort kernel.** Where the array lies in the address space, the kernel ends with
its elements in order, and reads and writes nothing else, if and only if the array does not begin in
the first four bytes, or has less than two elements, or none of them is less than the first one. -/
theorem simd_sort_iff {s : SimdState} (hPc : s.pc = 0) (hReads : s.reads = [])
    (hRoom : (s.registers .rcx).toNat + 4 * (s.low .r8).toInt.toNat ≤ 2 ^ 64) :
    SortsElements s ↔ 4 ≤ (s.registers .rcx).toNat ∨ (s.low .r8).toInt ≤ 1 ∨
      ∀ i < (s.low .r8).toInt.toNat, (element s.memory (s.registers .rcx) 0).toInt ≤
        (element s.memory (s.registers .rcx) i).toInt := by
  refine ⟨fun hSorts => ?_, sorts_elements hPc hReads hRoom⟩
  rcases le_or_gt 4 (s.registers .rcx).toNat with hBase | hBase
  · exact Or.inl hBase
  · refine Or.inr (Or.inr fun i hi => not_lt.mp fun hLess => ?_)
    exact not_sorts_elements hPc hReads hRoom hBase ⟨i, hi, hLess⟩ hSorts

-- ---
-- Two elements
-- ---

/-- The elements 2 and 1 at `base`. -/
def unsortedPair (base : Word) : ByteMemory :=
  fun p => if p = base then 2 else if p = base + 4 then 1 else 0

def sortStart (base : Word) : SimdState where
  registers register := if register = .rcx then base else if register = .r8 then 2 else 0
  lanes _ _ := 0
  memory := unsortedPair base
  flags := ⟨false, false, false⟩
  reads := []
  pc := 0

theorem simd_sort_iff_two : SortsElements (sortStart 4096) :=
  (simd_sort_iff rfl rfl (by decide)).mpr (Or.inl (by decide))

/-- **The scan that wraps.** Of the elements 2 and 1 at address 0, the scan reads what lies below
the first one, at the end of the address space. -/
theorem scan_wraps_at_zero : ¬ SortsElements (sortStart 0) :=
  not_sorts_elements rfl rfl (by decide) (by decide) ⟨1, by decide, by decide⟩

end Mettle.Codegen
