import Mathlib.Data.List.GetD
import Mettle.Codegen.BinaryEmitter

/-!
# Mettle — the layout of a written COFF file

The COFF writer computes every offset in `uint32_t` before it writes a byte. Here the
offsets are compared with the positions the bytes really get: as long as the tables
start below `2 ^ 32` (`LayoutFits`) no offset wraps, every part stands at the offset
written for it, and a name is found again through its eight-byte field or through the
string table.
-/

namespace Mettle.Codegen

open Mettle.Lib Mettle.Linker List

/-! ## Offsets that do not wrap -/

theorem partOffsets_exact : ∀ (lengths : List Nat) (offset : Nat), offset + lengths.sum < 2 ^ 32 →
      partOffsetsEnd lengths offset = offset + lengths.sum ∧ ∀ i length, lengths[i]? = some length →
          (partOffsets lengths offset).getD i 0 =
            if length > 0 then offset + (lengths.take i).sum else 0
  | [], offset, _ => by
    refine ⟨rfl, ?_⟩
    intro i length h
    cases h
  | head :: rest, offset, hSum => by
    rw [sum_cons] at hSum
    rw [partOffsetsEnd, partOffsets]
    -- the cursor after the head, whether or not the head is empty
    have hNext : (if head > 0 then (offset + head) % 2 ^ 32 else offset) = offset + head := by
      split
      · exact Nat.mod_eq_of_lt (by omega)
      · omega
    obtain ⟨hEnd, hGet⟩ := partOffsets_exact rest (offset + head) (by omega)
    constructor
    · rw [← apply_ite (partOffsetsEnd rest), hNext, hEnd, sum_cons]
      omega
    · intro i length hi
      cases i with
      | zero =>
        obtain rfl : head = length := Option.some.inj hi
        split
        · simp
        · simp
      | succ i =>
        have hTail := hGet i length hi
        rw [take_succ_cons, sum_cons]
        by_cases hHead : head > 0
        · rw [if_pos hHead] at hNext
          rw [if_pos hHead, hNext, getD_cons_succ, hTail, Nat.add_assoc]
        · rw [if_neg hHead, getD_cons_succ]
          have hZero : head = 0 := by omega
          rw [hZero, Nat.add_zero] at hTail
          rw [hTail, hZero, Nat.zero_add]

theorem partOffsets_append (a b : List Nat) (offset : Nat) :
    partOffsets (a ++ b) offset = partOffsets a offset ++ partOffsets b (partOffsetsEnd a offset) ∧
      partOffsetsEnd (a ++ b) offset = partOffsetsEnd b (partOffsetsEnd a offset) := by
  induction a generalizing offset with
  | nil => exact ⟨rfl, rfl⟩
  | cons head rest ih =>
    simp only [cons_append, partOffsets, partOffsetsEnd]
    split
    · obtain ⟨h₁, h₂⟩ := ih ((offset + head) % 2 ^ 32)
      rw [h₁, h₂]
      exact ⟨rfl, rfl⟩
    · obtain ⟨h₁, h₂⟩ := ih offset
      rw [h₁, h₂]
      exact ⟨rfl, rfl⟩

theorem length_partOffsets (lengths : List Nat) (offset : Nat) :
    (partOffsets lengths offset).length = lengths.length := by
  induction lengths generalizing offset with
  | nil => rfl
  | cons head rest ih =>
    rw [partOffsets]
    split
    · rw [length_cons, ih, length_cons]
    · rw [length_cons, ih, length_cons]

/-! ## The string table -/

def longBytes (name : CString) : List UInt8 := if name.length > 8 then name ++ [0] else []

theorem nameOffsets_eq (names : List CString) (size : Nat) :
    nameOffsets names size = partOffsets (names.map fun name => (longBytes name).length) size ∧
      nameOffsetsEnd names size =
        partOffsetsEnd (names.map fun name => (longBytes name).length) size := by
  induction names generalizing size with
  | nil => exact ⟨rfl, rfl⟩
  | cons name rest ih =>
    rw [nameOffsets, nameOffsetsEnd, map_cons, partOffsets, partOffsetsEnd]
    by_cases hLong : name.length > 8
    · have hLen : (longBytes name).length = name.length + 1 := by
        rw [longBytes, if_pos hLong, length_append, length_singleton]
      rw [if_pos hLong, if_pos hLong, if_pos (by omega), if_pos (by omega), hLen,
        ← Nat.add_assoc, (ih _).1, (ih _).2]
      exact ⟨rfl, rfl⟩
    · have hLen : (longBytes name).length = 0 := by
        rw [longBytes, if_neg hLong, length_nil]
      rw [if_neg hLong, if_neg hLong, if_neg (by omega), if_neg (by omega), (ih _).1, (ih _).2]
      exact ⟨rfl, rfl⟩

theorem stringTableNames_exact : ∀ (names : List CString) (size : Nat), 0 < size →
      size + (names.flatMap longBytes).length < 2 ^ 32 →
      stringTableNames names (nameOffsets names size) = names.flatMap longBytes
  | [], _, _, _ => rfl
  | name :: rest, size, hPos, hSum => by
    rw [flatMap_cons, length_append] at hSum
    rw [nameOffsets, flatMap_cons]
    by_cases hLong : name.length > 8
    · have hBytes : longBytes name = name ++ [0] := if_pos hLong
      have hLen : (longBytes name).length = name.length + 1 := by
        rw [hBytes, length_append, length_singleton]
      have ih := stringTableNames_exact rest (size + name.length + 1) (by omega) (by omega)
      rw [if_pos hLong, Nat.mod_eq_of_lt (by omega)]
      show (if size ≠ 0 then name ++ [0] else []) ++
        stringTableNames rest (nameOffsets rest (size + name.length + 1)) = _
      rw [if_pos (by omega), ih, hBytes]
    · have hBytes : longBytes name = [] := if_neg hLong
      have ih := stringTableNames_exact rest size hPos (by omega)
      rw [if_neg hLong, hBytes]
      exact ih

theorem coffReaderStringFromTable_at {pre name post : List UInt8} (hPre : 4 ≤ pre.length)
    (hName : (0 : UInt8) ∉ name) :
    coffReaderStringFromTable (some (pre ++ (name ++ 0 :: post))) pre.length = some name := by
  unfold coffReaderStringFromTable
  have hLen : (pre ++ (name ++ 0 :: post)).length =
      pre.length + (name.length + (post.length + 1)) := by
    simp
  dsimp only
  rw [hLen, if_neg (by omega), if_neg (by omega), drop_left, coffReaderDupCstringRange,
    if_pos (by simp), cString, takeWhile_append_of_pos]
  · simp
  · intro b hb
    have hNe : b ≠ 0 := by
      rintro rfl
      exact hName hb
    simpa using hNe

theorem length_flatMap_take (names : List CString) (p : Nat) :
    ((names.take p).flatMap longBytes).length =
      ((names.map fun name => (longBytes name).length).take p).sum := by
  rw [length_flatMap, map_take]

variable {name : CString}

/-- **A string-table offset finds its name.** -/
theorem coffReaderStringFromTable_names {names : List CString} {p : Nat} {sizeField : List UInt8}
    (hField : sizeField.length = 4) (hSum : 4 + (names.flatMap longBytes).length < 2 ^ 32)
    (hp : names[p]? = some name) (hLong : name.length > 8) (hName : (0 : UInt8) ∉ name) :
    coffReaderStringFromTable (some (sizeField ++ names.flatMap longBytes))
        ((nameOffsets names 4).getD p 0) = some name ∧
      (nameOffsets names 4).getD p 0 ≠ 0 ∧ (nameOffsets names 4).getD p 0 < 2 ^ 32 := by
  obtain ⟨hLt, rfl⟩ := List.getElem_of_getElem? hp
  have hBytes : longBytes names[p] = names[p] ++ [0] := if_pos hLong
  -- the table splits at the name
  have hSplit : names.flatMap longBytes =
      (names.take p).flatMap longBytes ++
        (names[p] ++ 0 :: (names.drop (p + 1)).flatMap longBytes) := by
    conv_lhs => rw [← List.take_append_drop p names, List.drop_eq_getElem_cons hLt]
    rw [List.flatMap_append, List.flatMap_cons, hBytes, List.append_assoc, List.singleton_append]
  have hSumEq : (names.map fun name => (longBytes name).length).sum =
      (names.flatMap longBytes).length := by
    rw [List.length_flatMap]
  have hOffset : (nameOffsets names 4).getD p 0 = 4 + ((names.take p).flatMap longBytes).length := by
    rw [(nameOffsets_eq names 4).1, length_flatMap_take]
    have h := (partOffsets_exact (names.map fun name => (longBytes name).length) 4 (by omega)).2 p
      (longBytes names[p]).length (by rw [List.getElem?_map, hp]; rfl)
    rw [h, if_pos]
    rw [hBytes, List.length_append, List.length_singleton]
    omega
  have hTakeLe : ((names.take p).flatMap longBytes).length ≤ (names.flatMap longBytes).length := by
    rw [hSplit, List.length_append]
    omega
  refine ⟨?_, by omega, by omega⟩
  rw [hOffset, hSplit, ← List.append_assoc]
  have hAt := @coffReaderStringFromTable_at (sizeField ++ (names.take p).flatMap longBytes)
    names[p] ((names.drop (p + 1)).flatMap longBytes) (by rw [List.length_append]; omega) hName
  rwa [List.length_append, hField] at hAt

/-! ## Name fields -/

theorem length_padField {bytes : List UInt8} (h : bytes.length ≤ 8) :
    (padField bytes).length = 8 := by
  rw [padField, length_append, length_replicate]
  omega

theorem cString_rdropWhile (bytes : List UInt8) :
    cString (bytes.rdropWhile (· == 0)) = cString bytes := by
  induction bytes using reverseRecOn with
  | nil => rfl
  | append_singleton bytes b ih =>
    by_cases hb : b = 0
    · subst hb
      rw [rdropWhile_concat_pos _ _ _ (by simp), ih]
      unfold cString
      rw [takeWhile_append]
      split
      · rename_i hLen
        rw [takeWhile_cons_of_neg (by simp), append_nil]
        exact ( takeWhile_prefix _).eq_of_length hLen
      · rfl
    · rw [rdropWhile_concat_neg _ _ _ (by simpa using hb)]

theorem cString_padded (hName : (0 : UInt8) ∉ name) (n : Nat) :
    cString (name ++ List.replicate n 0) = name := by
  have hAll : ∀ b ∈ name, decide (b ≠ 0) = true := by
    intro b hb
    have hNe : b ≠ 0 := by
      rintro rfl
      exact hName hb
    simpa using hNe
  unfold cString
  rw [takeWhile_append_of_pos hAll]
  cases n with
  | zero => simp
  | succ n => simp [replicate_succ]

theorem coffReaderDupBytesTrimmed_padField (hName : (0 : UInt8) ∉ name) :
    coffReaderDupBytesTrimmed (padField name) = name := by
  rw [coffReaderDupBytesTrimmed, cString_rdropWhile, padField, cString_padded hName]

/-- A short name in a symbol record is read back: its first byte is not NUL, so the
field does not look like a string-table reference. -/
theorem parseSymbolName_short (hName : (0 : UInt8) ∉ name) (table : Option (List UInt8)) :
    coffReaderParseSymbolName (padField name) table = some name := by
  have hNot : ¬ (linkerReadU32 (padField name) 0 = 0 ∧ linkerReadU32 (padField name) 4 ≠ 0) := by
    cases name with
    | nil =>
      rintro ⟨-, h⟩
      exact h (by decide)
    | cons b rest =>
      rintro ⟨h, -⟩
      have hb : b.toNat ≠ 0 := by
        intro hZero
        exact hName (mem_cons.mpr (Or.inl (UInt8.toNat.inj hZero).symm))
      have hHead : slice (padField (b :: rest)) 0 4 =
          b :: slice (rest ++ replicate (8 - (b :: rest).length) 0) 0 3 := rfl
      rw [linkerReadU32, hHead, leNat] at h
      omega
  unfold coffReaderParseSymbolName
  rw [if_neg hNot, coffReaderDupBytesTrimmed_padField hName]

theorem parseSymbolName_long {offset : Nat} {table : List UInt8} (hOffset : offset ≠ 0)
    (hLt : offset < 2 ^ 32) (hTable : coffReaderStringFromTable (some table) offset = some name) :
    coffReaderParseSymbolName (leBytes 4 0 ++ leBytes 4 offset) (some table) = some name := by
  have hZero : linkerReadU32 (leBytes 4 0 ++ leBytes 4 offset) 0 = 0 := by
    rw [linkerReadU32, slice_append_in (by rw [length_leBytes]), slice_zero_self (by
      rw [length_leBytes]), leNat_leBytes, Nat.zero_mod]
  have hRead : linkerReadU32 (leBytes 4 0 ++ leBytes 4 offset) 4 = offset := by
    rw [linkerReadU32, slice_append_skip (by rw [length_leBytes]), length_leBytes,
      slice_zero_self (by rw [length_leBytes]), leNat_leBytes_of_lt (by omega)]
  unfold coffReaderParseSymbolName
  rw [hZero, hRead, if_pos ⟨rfl, hOffset⟩, hTable]

theorem parseSectionNameOffset_none {bytes : List UInt8} (hNul : (0 : UInt8) ∉ bytes)
    (hDigit : ∃ b ∈ bytes, isDigit b = false) (rest : List UInt8) (offset : Nat) :
    coffReaderParseSectionNameOffset (bytes ++ rest) offset = none := by
  induction bytes generalizing offset with
  | nil =>
    obtain ⟨b, hb, -⟩ := hDigit
    cases hb
  | cons b bs ih =>
    rw [cons_append, coffReaderParseSectionNameOffset]
    have hb : b ≠ 0 := by
      rintro rfl
      exact hNul mem_cons_self
    rw [if_neg hb]
    by_cases hd : isDigit b = true
    · rw [if_pos hd]
      refine ih (fun h => hNul (mem_cons_of_mem _ h)) ?_ _
      obtain ⟨b', hb', hNot⟩ := hDigit
      rcases mem_cons.mp hb' with rfl | hMem
      · rw [hd] at hNot
        cases hNot
      · exact ⟨b', hMem, hNot⟩
    · rw [if_neg hd]

theorem parseSectionNameOffset_digit {d : Nat} (hd : d < 10) (rest : List UInt8) (offset : Nat) :
    coffReaderParseSectionNameOffset (UInt8.ofNat (48 + d) :: rest) offset =
      coffReaderParseSectionNameOffset rest ((offset * 10 + d) % 2 ^ 32) := by
  have hByte : (UInt8.ofNat (48 + d)).toNat = 48 + d := by
    rw [UInt8.toNat_ofNat']
    omega
  have hNe : UInt8.ofNat (48 + d) ≠ 0 := by
    intro h
    have := congrArg UInt8.toNat h
    rw [hByte] at this
    simp at this
  have hDigit : isDigit (UInt8.ofNat (48 + d)) = true := by
    rw [isDigit, Bool.and_eq_true, decide_eq_true_eq, decide_eq_true_eq, UInt8.le_iff_toNat_le,
      UInt8.le_iff_toNat_le, hByte]
    constructor
    · exact Nat.le_add_right 48 d
    · show 48 + d ≤ 57
      omega
  rw [coffReaderParseSectionNameOffset, if_neg hNe, if_pos hDigit, hByte, Nat.add_sub_cancel_left]

theorem parseSectionNameOffset_decimal (n : Nat) (rest : List UInt8) (offset : Nat)
    (hLt : offset * 10 ^ (decimal n).length + n < 2 ^ 32) :
    coffReaderParseSectionNameOffset (decimal n ++ rest) offset =
      coffReaderParseSectionNameOffset rest (offset * 10 ^ (decimal n).length + n) := by
  induction n using decimal.induct generalizing rest offset with
  | case1 n hn =>
    have hDec : decimal n = [UInt8.ofNat (48 + n)] := by
      rw [decimal, if_pos hn]
    rw [hDec, length_singleton, pow_one] at hLt
    rw [hDec, singleton_append, parseSectionNameOffset_digit hn, Nat.mod_eq_of_lt hLt,
      length_singleton, pow_one]
  | case2 n hn ih =>
    have hDec : decimal n = decimal (n / 10) ++ [UInt8.ofNat (48 + n % 10)] := by
      rw [decimal, if_neg hn]
    have hSplit : (offset * 10 ^ (decimal (n / 10)).length + n / 10) * 10 + n % 10 =
        offset * 10 ^ (decimal n).length + n := by
      rw [hDec, length_append, length_singleton, pow_succ]
      have hDiv := Nat.div_add_mod n 10
      ring_nf at hDiv ⊢
      omega
    rw [hDec, append_assoc, singleton_append, ih _ offset (by omega),
      parseSectionNameOffset_digit (Nat.mod_lt n (by norm_num)), hSplit,
      Nat.mod_eq_of_lt hLt, ← hDec]

/-- A short section name that reads as a string-table reference: a slash, then only digits. -/
def LooksLikeOffset (name : CString) : Prop :=
  name.head? = some 47 ∧ ∀ b ∈ name.tail, isDigit b = true

theorem parseSectionName_write {offset : Nat} {table field : List UInt8}
    (hName : (0 : UInt8) ∉ name) (hWrite : binaryEmitterWriteSectionName name offset = some field)
    (hShort : name.length ≤ 8 → ¬ LooksLikeOffset name) (hLong : name.length > 8 →
      coffReaderStringFromTable (some table) offset = some name ∧ offset < 2 ^ 32) :
    coffReaderParseSectionName field (some table) = some name ∧ field.length = 8 := by
  unfold binaryEmitterWriteSectionName at hWrite
  by_cases hLen : name.length ≤ 8
  · rw [if_pos hLen] at hWrite
    cases hWrite
    refine ⟨?_, length_padField hLen⟩
    unfold coffReaderParseSectionName
    have hTrim := coffReaderDupBytesTrimmed_padField hName
    split
    · rename_i hHead
      -- the field starts with a slash, so the name does, and a further byte is no digit
      have hNone : coffReaderParseSectionNameOffset (padField name).tail 0 = none := by
        cases name with
        | nil => simp [padField, replicate] at hHead
        | cons b rest =>
          have hSlash : (b :: rest).head? = some 47 := hHead
          have hNot := hShort hLen
          rw [LooksLikeOffset, not_and] at hNot
          have hDigit := hNot hSlash
          rw [not_forall] at hDigit
          obtain ⟨d, hd⟩ := hDigit
          rw [Classical.not_imp, Bool.not_eq_true] at hd
          exact parseSectionNameOffset_none (fun h => hName (mem_cons_of_mem _ h)) ⟨d, hd⟩ _ _
      rw [hNone, hTrim]
    · rw [hTrim]
  · rw [if_neg hLen] at hWrite
    split at hWrite
    · cases hWrite
    · rename_i hFits
      cases hWrite
      obtain ⟨hTable, hLt⟩ := hLong (by omega)
      have hFieldLen : (47 :: decimal offset).length ≤ 8 := by
        rw [length_cons]
        omega
      refine ⟨?_, length_padField hFieldLen⟩
      have hTail : (padField (47 :: decimal offset)).tail =
          decimal offset ++ replicate (8 - (47 :: decimal offset).length) 0 := rfl
      have hPad : 8 - (47 :: decimal offset).length = (6 - (decimal offset).length) + 1 := by
        rw [length_cons]
        omega
      have hParse : coffReaderParseSectionNameOffset (padField (47 :: decimal offset)).tail 0 =
          some offset := by
        rw [hTail, parseSectionNameOffset_decimal _ _ _ (by omega), hPad, replicate_succ,
          coffReaderParseSectionNameOffset, if_pos rfl, Nat.zero_mul, Nat.zero_add]
      unfold coffReaderParseSectionName
      rw [if_pos (show (padField (47 :: decimal offset)).head? = some 47 from rfl), hParse]
      exact hTable

/-! ## The layout without wrap -/

def allNames (emitter : BinaryEmitter) : List CString :=
  emitter.sections.map BinarySection.name ++ emitter.symbols.map BinarySymbol.name

def rawLengths (emitter : BinaryEmitter) : List Nat :=
  emitter.sections.map fun section_ => section_.fileBytes.length

def relocLengths (emitter : BinaryEmitter) : List Nat :=
  (List.range emitter.sections.length).map fun i => (emitter.relocationsOf i).length * 10

def symbolTableStart (emitter : BinaryEmitter) : Nat :=
  20 + emitter.sections.length * 40 + (rawLengths emitter).sum + (relocLengths emitter).sum

def stringTableLength (emitter : BinaryEmitter) : Nat :=
  4 + ((allNames emitter).flatMap longBytes).length

/-- The tables of the file can be addressed by 32-bit offsets, and no short section name
reads as a string-table reference. -/
structure LayoutFits (emitter : BinaryEmitter) : Prop where
  start : symbolTableStart emitter < 2 ^ 32
  strings : stringTableLength emitter < 2 ^ 32
  names : ∀ section_ ∈ emitter.sections, section_.name.length ≤ 8 → ¬ LooksLikeOffset section_.name

def stringTableBytes (emitter : BinaryEmitter) : List UInt8 :=
  leBytes 4 (stringTableLength emitter) ++ (allNames emitter).flatMap longBytes

theorem length_stringTableBytes (emitter : BinaryEmitter) :
    (stringTableBytes emitter).length = stringTableLength emitter := by
  rw [stringTableBytes, length_append, length_leBytes, stringTableLength]

variable {i : Nat}

section Layout

variable {emitter : BinaryEmitter} (hFits : LayoutFits emitter)
include hFits

theorem coffLayout_rawOffset {section_ : BinarySection}
    (hi : emitter.sections[i]? = some section_) :
    (coffLayout emitter).rawOffsets.getD i 0 =
      if section_.fileBytes.length > 0 then
        20 + emitter.sections.length * 40 + ((rawLengths emitter).take i).sum
      else 0 := by
  have hStart := hFits.start
  unfold symbolTableStart at hStart
  have hMod : (20 + emitter.sections.length * 40) % 2 ^ 32 = 20 + emitter.sections.length * 40 :=
    Nat.mod_eq_of_lt (by omega)
  have h := (partOffsets_exact (rawLengths emitter) (20 + emitter.sections.length * 40)
    (by omega)).2 i section_.fileBytes.length (by rw [rawLengths, getElem?_map, hi]; rfl)
  rw [← hMod] at h
  rw [← hMod]
  exact h

theorem coffLayout_rawEnd :
    partOffsetsEnd (rawLengths emitter) ((20 + emitter.sections.length * 40) % 2 ^ 32) =
      20 + emitter.sections.length * 40 + (rawLengths emitter).sum := by
  have hStart := hFits.start
  unfold symbolTableStart at hStart
  rw [Nat.mod_eq_of_lt (by omega)]
  exact (partOffsets_exact (rawLengths emitter) _ (by omega)).1

theorem coffLayout_relocOffset (hi : i < emitter.sections.length) :
    (coffLayout emitter).relocOffsets.getD i 0 =
      if (emitter.relocationsOf i).length * 10 > 0 then
        20 + emitter.sections.length * 40 + (rawLengths emitter).sum +
          ((relocLengths emitter).take i).sum
      else 0 := by
  have hStart := hFits.start
  unfold symbolTableStart at hStart
  have h := (partOffsets_exact (relocLengths emitter)
    (20 + emitter.sections.length * 40 + (rawLengths emitter).sum) (by omega)).2 i
    ((emitter.relocationsOf i).length * 10) (by
      rw [relocLengths, getElem?_map, getElem?_range hi]; rfl)
  have hDef : (coffLayout emitter).relocOffsets = partOffsets (relocLengths emitter)
      (partOffsetsEnd (rawLengths emitter) ((20 + emitter.sections.length * 40) % 2 ^ 32)) := by
    simp only [coffLayout, relocLengths, map_map]
    rfl
  rw [hDef, coffLayout_rawEnd hFits, h]

theorem coffLayout_pointerToSymbolTable :
    (coffLayout emitter).pointerToSymbolTable = symbolTableStart emitter := by
  have hStart := hFits.start
  unfold symbolTableStart at hStart
  have hDef : (coffLayout emitter).pointerToSymbolTable = partOffsetsEnd (relocLengths emitter)
      (partOffsetsEnd (rawLengths emitter) ((20 + emitter.sections.length * 40) % 2 ^ 32)) := by
    simp only [coffLayout, relocLengths, map_map]
    rfl
  rw [hDef, coffLayout_rawEnd hFits]
  exact (partOffsets_exact (relocLengths emitter) _ (by omega)).1

omit hFits in
theorem coffLayout_nameOffsets : nameOffsets (allNames emitter) 4 =
        (coffLayout emitter).sectionNameOffsets ++ (coffLayout emitter).symbolNameOffsets ∧
      nameOffsetsEnd (allNames emitter) 4 = (coffLayout emitter).stringTableSize ∧
      (coffLayout emitter).sectionNameOffsets.length = emitter.sections.length ∧
      (coffLayout emitter).symbolNameOffsets.length = emitter.symbols.length := by
  have hSections := nameOffsets_eq (emitter.sections.map BinarySection.name) 4
  have hSymbols := nameOffsets_eq (emitter.symbols.map BinarySymbol.name)
    (nameOffsetsEnd (emitter.sections.map BinarySection.name) 4)
  obtain ⟨hAll, hAllEnd⟩ := nameOffsets_eq (allNames emitter) 4
  obtain ⟨hApp, hAppEnd⟩ := partOffsets_append
    ((emitter.sections.map BinarySection.name).map fun name => (longBytes name).length)
    ((emitter.symbols.map BinarySymbol.name).map fun name => (longBytes name).length) 4
  have hMap : (allNames emitter).map (fun name => (longBytes name).length) =
      (emitter.sections.map BinarySection.name).map (fun name => (longBytes name).length) ++
        (emitter.symbols.map BinarySymbol.name).map fun name => (longBytes name).length := by
    rw [allNames, map_append]
  refine ⟨?_, ?_, ?_, ?_⟩
  · rw [hAll, hMap, hApp]
    show _ = nameOffsets _ 4 ++ nameOffsets _ (nameOffsetsEnd _ 4)
    rw [hSymbols.1, hSections.1, hSections.2]
  · rw [hAllEnd, hMap, hAppEnd]
    show _ = nameOffsetsEnd _ (nameOffsetsEnd _ 4)
    rw [hSymbols.2, hSections.2]
  · show (nameOffsets _ 4).length = _
    rw [hSections.1, length_partOffsets, length_map, length_map]
  · show (nameOffsets _ (nameOffsetsEnd _ 4)).length = _
    rw [hSymbols.1, length_partOffsets, length_map, length_map]

theorem coffLayout_stringTableSize :
    (coffLayout emitter).stringTableSize = stringTableLength emitter := by
  have hStrings := hFits.strings
  unfold stringTableLength at hStrings
  have hSum : ((allNames emitter).map fun name => (longBytes name).length).sum =
      ((allNames emitter).flatMap longBytes).length := by
    rw [length_flatMap]
  rw [← coffLayout_nameOffsets.2.1, (nameOffsets_eq _ _).2,
    (partOffsets_exact _ 4 (by omega)).1, hSum, stringTableLength]

theorem stringTable_written : leBytes 4 (coffLayout emitter).stringTableSize ++
        (stringTableNames (emitter.sections.map BinarySection.name)
            (coffLayout emitter).sectionNameOffsets ++
          stringTableNames (emitter.symbols.map BinarySymbol.name)
            (coffLayout emitter).symbolNameOffsets) = stringTableBytes emitter := by
  have hStrings := hFits.strings
  unfold stringTableLength at hStrings
  obtain ⟨hNames, -, hLenSections, -⟩ := @coffLayout_nameOffsets emitter
  have hJoin : stringTableNames (emitter.sections.map BinarySection.name)
        (coffLayout emitter).sectionNameOffsets ++
      stringTableNames (emitter.symbols.map BinarySymbol.name)
        (coffLayout emitter).symbolNameOffsets =
      stringTableNames (allNames emitter) (nameOffsets (allNames emitter) 4) := by
    unfold stringTableNames
    rw [hNames, allNames, zip_append (by rw [length_map, hLenSections]), flatMap_append]
  rw [hJoin, stringTableNames_exact _ _ (by norm_num) (by omega), coffLayout_stringTableSize hFits]
  rfl

theorem lookup_name {p : Nat} (hp : (allNames emitter)[p]? = some name) (hLong : name.length > 8)
    (hName : (0 : UInt8) ∉ name) :
    coffReaderStringFromTable (some (stringTableBytes emitter))
        ((nameOffsets (allNames emitter) 4).getD p 0) = some name ∧
      (nameOffsets (allNames emitter) 4).getD p 0 ≠ 0 ∧
      (nameOffsets (allNames emitter) 4).getD p 0 < 2 ^ 32 :=
  coffReaderStringFromTable_names (length_leBytes 4 _) hFits.strings hp hLong hName

omit hFits in
theorem sectionNameOffset_eq (hi : i < emitter.sections.length) :
    (coffLayout emitter).sectionNameOffsets.getD i 0 =
      (nameOffsets (allNames emitter) 4).getD i 0 := by
  obtain ⟨hNames, -, hLenSections, -⟩ := @coffLayout_nameOffsets emitter
  rw [hNames, getD_append _ _ _ _ (by omega)]

omit hFits in
theorem symbolNameOffset_eq (j : Nat) : (coffLayout emitter).symbolNameOffsets.getD j 0 =
      (nameOffsets (allNames emitter) 4).getD (emitter.sections.length + j) 0 := by
  obtain ⟨hNames, -, hLenSections, -⟩ := @coffLayout_nameOffsets emitter
  rw [hNames, getD_append_right _ _ _ _ (by omega), hLenSections, Nat.add_sub_cancel_left]

end Layout

end Mettle.Codegen
