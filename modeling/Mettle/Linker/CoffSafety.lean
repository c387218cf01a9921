import Mathlib.Tactic.IntervalCases
import Mettle.Linker.CoffReader

/-!
# Mettle — the COFF reader on any bytes

The reader of `CoffReader` takes its bytes with `slice`, which gives fewer bytes at the end
of the file. `coffObjectReadChecked` is the same reader with every access to the file
checked: a record that does not lie in the buffer is a fault. The two are equal, so that
no access leaves the buffer, as long as the file is below 4 GiB: the range checks of the
string table take a `uint32_t`.

What the reader returns lies in the buffer and in its tables (`ReadInside`). Symbol indexes
of relocations and section numbers of symbols are passed on as they are; the stages that
use them check them. Objects with a symbol table that are well formed (`WellFormedCoff`)
are accepted; an object without one is not, unless it is large, because its first bytes
are taken for the size of a string table.
-/

namespace Mettle.Linker

open Mettle.Lib List Option

-- ---
-- Checked accesses
-- ---

/-- A computation that reads the file: `none` is a read outside the buffer, an error is a
reported one. -/
abbrev Checked := ExceptT String Option

def Checked.of {α : Type} (result : Except String α) : Checked α := ExceptT.mk (some result)

def access (file : List UInt8) (off len : Nat) : Checked (List UInt8) :=
  if off + len ≤ file.length then .of (.ok (slice file off len)) else ExceptT.mk none

def accessIf (present : Bool) (file : List UInt8) (off len : Nat) : Checked (List UInt8) :=
  if present then access file off len else pure []

def coffReaderParseStringTableChecked (pointerToSymbolTable symbolCount : Nat)
    (file : List UInt8) : Checked (Option (List UInt8)) :=
  let stringTableOffset := pointerToSymbolTable + symbolCount * COFF_SYMBOL_SIZE
  if stringTableOffset > file.length then
    throw "COFF string table offset is out of range"
  else if stringTableOffset = file.length then pure none
  else if !coffReaderRangeOk file.length (stringTableOffset % 2 ^ 32) 4 then
    throw "COFF string table header is truncated"
  else do
    let header ← access file stringTableOffset 4
    let stringTableSize := linkerReadU32 header 0
    if stringTableSize = 0 then pure none
    else if stringTableSize < 4 then throw "COFF string table size is invalid"
    else if !coffReaderRangeOk file.length (stringTableOffset % 2 ^ 32) stringTableSize then
      throw "COFF string table extends past end of file"
    else do
      let table ← access file stringTableOffset stringTableSize
      pure (some table)

def coffReaderParseRelocationChecked (file : List UInt8) (pointerToRelocations r : Nat) :
    Checked CoffRelocation := do
  let relocation ← access file (pointerToRelocations + r * COFF_RELOCATION_SIZE)
    COFF_RELOCATION_SIZE
  pure { virtualAddress := linkerReadU32 relocation 0
         symbolTableIndex := linkerReadU32 relocation 4
         type := linkerReadU16 relocation 8 }

def coffReaderParseSectionChecked (stringTable : Option (List UInt8)) (file : List UInt8)
    (i : Nat) : Checked CoffSection := do
  let header ← access file (COFF_FILE_HEADER_SIZE + i * COFF_SECTION_HEADER_SIZE)
    COFF_SECTION_HEADER_SIZE
  match coffReaderParseSectionName (slice header 0 8) stringTable with
  | none => throw s!"Failed to resolve COFF section name {i + 1}"
  | some name =>
    let virtualSize := linkerReadU32 header 8
    let sizeOfRawData := linkerReadU32 header 16
    let pointerToRawData := linkerReadU32 header 20
    let pointerToRelocations := linkerReadU32 header 24
    let numberOfRelocations := linkerReadU16 header 32
    let characteristics := linkerReadU32 header 36
    if sizeOfRawData > 0 ∧ !coffReaderRangeOk file.length pointerToRawData sizeOfRawData then
      throw s!"Section '{showName name}' raw data is out of range"
    else do
      let rawData ← accessIf (sizeOfRawData > 0) file pointerToRawData sizeOfRawData
      if numberOfRelocations > 0 ∧ !coffReaderRangeOk file.length pointerToRelocations
          (numberOfRelocations * COFF_RELOCATION_SIZE) then
        throw s!"Section '{showName name}' relocation table is out of range"
      else do
        let relocations ← (List.range numberOfRelocations).mapM
          (coffReaderParseRelocationChecked file pointerToRelocations)
        pure { name, kind := coffSectionKindFromName name, virtualSize, characteristics, rawData,
               relocations }

def coffReaderParseSectionsChecked (sectionCount : Nat) (stringTable : Option (List UInt8))
    (file : List UInt8) : Checked (List CoffSection) :=
  if sectionCount = 0 then pure []
  else if !coffReaderRangeOk file.length COFF_FILE_HEADER_SIZE
      (sectionCount * COFF_SECTION_HEADER_SIZE) then
    throw "COFF section table is truncated"
  else (List.range sectionCount).mapM (coffReaderParseSectionChecked stringTable file)

def coffReaderParseSymbolsFromChecked (stringTable : Option (List UInt8)) (file : List UInt8)
    (pointerToSymbolTable : Nat) :
    (remaining i auxRemaining primarySymbolIndex : Nat) → Checked (List CoffSymbol)
  | 0, _, _, _ => pure []
  | remaining + 1, i, auxRemaining + 1, primarySymbolIndex => do
    let rest ← coffReaderParseSymbolsFromChecked stringTable file pointerToSymbolTable remaining
      (i + 1) auxRemaining primarySymbolIndex
    pure (auxiliarySymbol i primarySymbolIndex :: rest)
  | remaining + 1, i, 0, primarySymbolIndex => do
    let entry ← access file (pointerToSymbolTable + i * COFF_SYMBOL_SIZE) COFF_SYMBOL_SIZE
    match coffReaderParseSymbolName (slice entry 0 8) stringTable with
    | none => throw s!"Failed to resolve COFF symbol name at index {i}"
    | some name =>
      let auxiliaryCount := leNat (slice entry 17 1)
      if auxiliaryCount > remaining then
        throw s!"Symbol '{showName name}' has truncated auxiliary records"
      else do
        let hasAux := decide (auxiliaryCount > 0)
        -- the first eight bytes of the next record
        let auxEntry ← accessIf hasAux file
          (pointerToSymbolTable + i * COFF_SYMBOL_SIZE + COFF_SYMBOL_SIZE) 8
        let symbol : CoffSymbol :=
          { rawIndex := i, name := some name, value := linkerReadU32 entry 8
            sectionNumber := coffReaderI16 entry 12
            type := linkerReadU16 entry 14
            storageClass := leNat (slice entry 16 1)
            auxiliaryCount := auxiliaryCount, isAuxiliary := false
            primarySymbolIndex := i, hasAuxiliaryRecord := hasAux
            auxSectionLength := if hasAux then linkerReadU32 auxEntry 0 else 0
            auxSectionRelocationCount := if hasAux then linkerReadU16 auxEntry 4 else 0
            auxSectionLineNumberCount := if hasAux then linkerReadU16 auxEntry 6 else 0 }
        let rest ← coffReaderParseSymbolsFromChecked stringTable file pointerToSymbolTable
          remaining (i + 1) auxiliaryCount (if hasAux then i else primarySymbolIndex)
        pure (symbol :: rest)

def coffReaderParseSymbolsChecked (pointerToSymbolTable symbolCount : Nat)
    (stringTable : Option (List UInt8)) (file : List UInt8) : Checked (List CoffSymbol) :=
  if symbolCount = 0 then pure []
  else if !coffReaderRangeOk file.length pointerToSymbolTable (symbolCount * COFF_SYMBOL_SIZE) then
    throw "COFF symbol table is out of range"
  else coffReaderParseSymbolsFromChecked stringTable file pointerToSymbolTable symbolCount 0 0 0

/-- `coff_object_read` with its accesses checked. -/
def coffObjectReadChecked (filename : String) (file : List UInt8) : Checked CoffObject :=
  if file.length < COFF_FILE_HEADER_SIZE then
    throw s!"COFF file '{filename}' is smaller than the file header"
  else do
    let header ← access file 0 COFF_FILE_HEADER_SIZE
    let machine := linkerReadU16 header 0
    let sectionCount := linkerReadU16 header 2
    let pointerToSymbolTable := linkerReadU32 header 8
    let symbolCount := linkerReadU32 header 12
    if machine ≠ COFF_MACHINE_AMD64 then
      throw (s!"Unsupported COFF machine 0x{showHex4 machine} " ++
        s!"(expected 0x{showHex4 COFF_MACHINE_AMD64})")
    else do
      let stringTable ← coffReaderParseStringTableChecked pointerToSymbolTable symbolCount file
      let sections ← coffReaderParseSectionsChecked sectionCount stringTable file
      let symbols ← coffReaderParseSymbolsChecked pointerToSymbolTable symbolCount stringTable file
      pure { sections, symbols }

-- ---
-- No access leaves the buffer
-- ---

variable {α β : Type}

@[simp] theorem Checked.of_ok_bind (a : α) (f : α → Checked β) :
    (Checked.of (.ok a) >>= f) = f a := rfl

theorem Checked.throw_eq (e : String) : (throw e : Checked α) = Checked.of (.error e) := rfl

theorem Checked.pure_eq (a : α) : (pure a : Checked α) = Checked.of (.ok a) := rfl

theorem Checked.of_bind (r : Except String α) (g : α → Except String β) :
    (Checked.of r >>= fun a => Checked.of (g a)) = Checked.of (r >>= g) := by
  cases r <;> rfl

variable {file : List UInt8}

variable {off len : Nat}

theorem access_of_le (h : off + len ≤ file.length) :
    access file off len = Checked.of (.ok (slice file off len)) := if_pos h

theorem mapM_checked {f : α → Checked β} {g : α → Except String β} (l : List α)
    (h : ∀ a ∈ l, f a = Checked.of (g a)) : l.mapM f = Checked.of (l.mapM g) := by
  induction l with
  | nil => rfl
  | cons a rest ih =>
    have hRest := ih fun b hb => h b (mem_cons_of_mem _ hb)
    rw [mapM_cons, mapM_cons, h a mem_cons_self, hRest]
    cases g a with
    | error e => rfl
    | ok b =>
      cases rest.mapM g with
      | error e => rfl
      | ok bs => rfl

theorem coffReaderRangeOk_iff {fileSize offset length : Nat} :
    coffReaderRangeOk fileSize offset length = true ↔ offset + length ≤ fileSize := by
  unfold coffReaderRangeOk
  by_cases h : offset > fileSize
  · rw [if_pos h]
    simp only [Bool.false_eq_true, false_iff]
    omega
  · rw [if_neg h]
    by_cases hLength : length > fileSize - offset
    · rw [if_pos hLength]
      simp only [Bool.false_eq_true, false_iff]
      omega
    · rw [if_neg hLength]
      simp only [true_iff]
      omega

-- Fields of a record are read where the record stands in the file.

theorem readU16_record {o : Nat} (h : o + 2 ≤ len) :
    linkerReadU16 (slice file off len) o = linkerReadU16 file (off + o) := by
  rw [linkerReadU16, linkerReadU16, slice_slice _ h]

theorem readU32_record {o : Nat} (h : o + 4 ≤ len) :
    linkerReadU32 (slice file off len) o = linkerReadU32 file (off + o) := by
  rw [linkerReadU32, linkerReadU32, slice_slice _ h]

variable {stringTable : Option (List UInt8)}

variable {i pointerToSymbolTable : Nat} (filename : String)

section Checks

theorem parseStringTable_checked (hSize : file.length < 2 ^ 32)
    (pointerToSymbolTable symbolCount : Nat) :
    coffReaderParseStringTableChecked pointerToSymbolTable symbolCount file =
      .of (coffReaderParseStringTable pointerToSymbolTable symbolCount file) := by
  unfold coffReaderParseStringTableChecked coffReaderParseStringTable
  generalize pointerToSymbolTable + symbolCount * COFF_SYMBOL_SIZE = off
  by_cases hPast : off > file.length
  · simp only [if_pos hPast, Checked.throw_eq]
  by_cases hEnd : off = file.length
  · simp only [if_neg hPast, if_pos hEnd, Checked.pure_eq]
  have hCast : off % 2 ^ 32 = off := Nat.mod_eq_of_lt (by omega)
  simp only [if_neg hPast, if_neg hEnd, hCast]
  by_cases hHeader : coffReaderRangeOk file.length off 4 = true
  · simp only [hHeader, Bool.not_true, Bool.false_eq_true, if_false]
    rw [access_of_le (coffReaderRangeOk_iff.mp hHeader), Checked.of_ok_bind,
      readU32_record (by decide), Nat.add_zero]
    generalize linkerReadU32 file off = size
    by_cases hZero : size = 0
    · simp only [if_pos hZero, Checked.pure_eq]
    by_cases hShort : size < 4
    · simp only [if_neg hZero, if_pos hShort, Checked.throw_eq]
    by_cases hFits : coffReaderRangeOk file.length off size = true
    · simp only [if_neg hZero, if_neg hShort, hFits, Bool.not_true, Bool.false_eq_true, if_false]
      rw [access_of_le (coffReaderRangeOk_iff.mp hFits), Checked.of_ok_bind, Checked.pure_eq]
    · simp [if_neg hZero, if_neg hShort, Bool.not_eq_true _ ▸ hFits, Checked.throw_eq]
  · simp [Bool.not_eq_true _ ▸ hHeader, Checked.throw_eq]

theorem parseRelocation_checked {pointerToRelocations count r : Nat} (hr : r < count)
    (hTable : pointerToRelocations + count * COFF_RELOCATION_SIZE ≤ file.length) :
    coffReaderParseRelocationChecked file pointerToRelocations r =
      .of (.ok (coffReaderParseRelocation file pointerToRelocations r)) := by
  have hMul : (r + 1) * COFF_RELOCATION_SIZE ≤ count * COFF_RELOCATION_SIZE :=
    Nat.mul_le_mul_right _ hr
  rw [Nat.add_mul, Nat.one_mul] at hMul
  unfold coffReaderParseRelocationChecked
  rw [access_of_le (by omega), Checked.of_ok_bind, Checked.pure_eq,
    readU32_record (by decide), readU32_record (by decide), readU16_record (by decide)]
  rfl

theorem parseSection_checked {count : Nat} (hi : i < count)
    (hTable : COFF_FILE_HEADER_SIZE + count * COFF_SECTION_HEADER_SIZE ≤ file.length) :
    coffReaderParseSectionChecked stringTable file i =
      .of (coffReaderParseSection stringTable file i) := by
  have hMul : (i + 1) * COFF_SECTION_HEADER_SIZE ≤ count * COFF_SECTION_HEADER_SIZE :=
    Nat.mul_le_mul_right _ hi
  rw [Nat.add_mul, Nat.one_mul] at hMul
  unfold coffReaderParseSectionChecked coffReaderParseSection
  rw [access_of_le (by omega), Checked.of_ok_bind, slice_slice _ (by decide),
    readU32_record (by decide), readU32_record (by decide), readU32_record (by decide),
    readU32_record (by decide), readU32_record (by decide), readU16_record (by decide),
    Nat.add_zero]
  simp only
  generalize COFF_FILE_HEADER_SIZE + i * COFF_SECTION_HEADER_SIZE = header
  cases coffReaderParseSectionName (slice file header 8) stringTable with
  | none => simp only [Checked.throw_eq]
  | some name =>
    generalize linkerReadU32 file (header + 16) = size
    generalize linkerReadU32 file (header + 20) = pointer
    generalize linkerReadU32 file (header + 24) = relocationPointer
    generalize linkerReadU16 file (header + 32) = relocationCount
    by_cases hRaw : size > 0 ∧ (!coffReaderRangeOk file.length pointer size) = true
    · simp only [if_pos hRaw, Checked.throw_eq]
    -- the raw bytes are all there
    have hBytes : accessIf (decide (size > 0)) file pointer size =
        Checked.of (.ok (slice file pointer size)) := by
      by_cases hSome : size > 0
      · rw [accessIf, if_pos (decide_eq_true hSome)]
        refine access_of_le (coffReaderRangeOk_iff.mp ?_)
        by_contra hNot
        exact hRaw ⟨hSome, by simpa using hNot⟩
      · obtain rfl : size = 0 := by omega
        rfl
    simp only [if_neg hRaw, hBytes, Checked.of_ok_bind]
    by_cases hRelocations : relocationCount > 0 ∧ (!coffReaderRangeOk file.length
        relocationPointer (relocationCount * COFF_RELOCATION_SIZE)) = true
    · simp only [if_pos hRelocations, Checked.throw_eq]
    have hList : (range relocationCount).mapM
        (coffReaderParseRelocationChecked file relocationPointer) =
        Checked.of (.ok ((range relocationCount).map
          (coffReaderParseRelocation file relocationPointer))) := by
      rw [mapM_checked (g := fun r => .ok (coffReaderParseRelocation file relocationPointer r))]
      · exact congrArg Checked.of (mapM_pure)
      · intro r hr
        have hLt := mem_range.mp hr
        refine parseRelocation_checked hLt (coffReaderRangeOk_iff.mp ?_)
        by_contra hNot
        exact hRelocations ⟨by omega, by simpa using hNot⟩
    simp only [if_neg hRelocations, hList, Checked.of_ok_bind, Checked.pure_eq]

theorem parseSections_checked (sectionCount : Nat) (stringTable : Option (List UInt8)) :
    coffReaderParseSectionsChecked sectionCount stringTable file =
      .of (coffReaderParseSections sectionCount stringTable file) := by
  unfold coffReaderParseSectionsChecked coffReaderParseSections
  by_cases hNone : sectionCount = 0
  · simp only [if_pos hNone, Checked.pure_eq]
  by_cases hTable : coffReaderRangeOk file.length COFF_FILE_HEADER_SIZE
      (sectionCount * COFF_SECTION_HEADER_SIZE) = true
  · simp only [if_neg hNone, hTable, Bool.not_true, Bool.false_eq_true, if_false]
    exact mapM_checked _ fun i hi =>
      parseSection_checked (mem_range.mp hi) (coffReaderRangeOk_iff.mp hTable)
  · simp [if_neg hNone, Bool.not_eq_true _ ▸ hTable, Checked.throw_eq]

theorem parseSymbolsFrom_checked : ∀ remaining i auxRemaining primarySymbolIndex : Nat,
    pointerToSymbolTable + (i + remaining) * COFF_SYMBOL_SIZE ≤ file.length →
    coffReaderParseSymbolsFromChecked stringTable file pointerToSymbolTable remaining i
        auxRemaining primarySymbolIndex =
      .of (coffReaderParseSymbolsFrom stringTable file pointerToSymbolTable remaining i
        auxRemaining primarySymbolIndex) := by
  intro remaining
  induction remaining with
  | zero => intro i auxRemaining primary _; cases auxRemaining <;> rfl
  | succ remaining ih =>
    intro i auxRemaining primary hTable
    have hTable' : pointerToSymbolTable + (i + 1 + remaining) * COFF_SYMBOL_SIZE ≤ file.length := by
      rwa [Nat.add_right_comm, Nat.add_assoc]
    cases auxRemaining with
    | succ auxRemaining =>
      rw [coffReaderParseSymbolsFromChecked, coffReaderParseSymbolsFrom,
        ih (i + 1) auxRemaining primary hTable']
      cases coffReaderParseSymbolsFrom stringTable file pointerToSymbolTable remaining (i + 1)
        auxRemaining primary <;> rfl
    | zero =>
      have hEntry : pointerToSymbolTable + i * COFF_SYMBOL_SIZE + COFF_SYMBOL_SIZE ≤
          file.length := by
        unfold COFF_SYMBOL_SIZE at hTable ⊢
        omega
      rw [coffReaderParseSymbolsFromChecked, coffReaderParseSymbolsFrom, access_of_le hEntry,
        Checked.of_ok_bind, slice_slice _ (by decide), slice_slice _ (by decide),
        slice_slice _ (by decide), readU32_record (by decide), readU16_record (by decide),
        Nat.add_zero]
      simp only [coffReaderI16, readU16_record (show 12 + 2 ≤ COFF_SYMBOL_SIZE by decide)]
      cases coffReaderParseSymbolName
        (slice file (pointerToSymbolTable + i * COFF_SYMBOL_SIZE) 8) stringTable with
      | none => simp only [Checked.throw_eq]
      | some name =>
        generalize hAux : leNat (slice file (pointerToSymbolTable + i * COFF_SYMBOL_SIZE + 17) 1) =
          auxiliaryCount
        by_cases hTruncated : auxiliaryCount > remaining
        · simp only [if_pos hTruncated, Checked.throw_eq]
        simp only [if_neg hTruncated]
        rw [ih (i + 1) _ _ hTable']
        by_cases hSome : auxiliaryCount > 0
        · -- the auxiliary record is in the table, since the count is
          have hNext : pointerToSymbolTable + i * COFF_SYMBOL_SIZE + COFF_SYMBOL_SIZE + 8 ≤
              file.length := by
            unfold COFF_SYMBOL_SIZE at hTable ⊢
            omega
          simp only [accessIf, decide_eq_true hSome, if_true, access_of_le hNext,
            Checked.of_ok_bind, readU32_record (show 0 + 4 ≤ 8 by decide),
            readU16_record (show 4 + 2 ≤ 8 by decide), readU16_record (show 6 + 2 ≤ 8 by decide),
            Nat.add_zero]
          cases coffReaderParseSymbolsFrom stringTable file pointerToSymbolTable remaining (i + 1)
            auxiliaryCount i <;> rfl
        · simp only [accessIf, decide_eq_false hSome, Bool.false_eq_true, if_false,
            Checked.pure_eq, Checked.of_ok_bind]
          cases coffReaderParseSymbolsFrom stringTable file pointerToSymbolTable remaining (i + 1)
            auxiliaryCount primary <;> rfl

theorem parseSymbols_checked (pointerToSymbolTable symbolCount : Nat)
    (stringTable : Option (List UInt8)) :
    coffReaderParseSymbolsChecked pointerToSymbolTable symbolCount stringTable file =
      .of (coffReaderParseSymbols pointerToSymbolTable symbolCount stringTable file) := by
  unfold coffReaderParseSymbolsChecked coffReaderParseSymbols
  by_cases hNone : symbolCount = 0
  · simp only [if_pos hNone, Checked.pure_eq]
  by_cases hTable : coffReaderRangeOk file.length pointerToSymbolTable
      (symbolCount * COFF_SYMBOL_SIZE) = true
  · simp only [if_neg hNone, hTable, Bool.not_true, Bool.false_eq_true, if_false]
    refine parseSymbolsFrom_checked symbolCount 0 0 0 ?_
    rw [Nat.zero_add]
    exact coffReaderRangeOk_iff.mp hTable
  · simp [if_neg hNone, Bool.not_eq_true _ ▸ hTable, Checked.throw_eq]

/-- **No access leaves the buffer** of a file below 4 GiB. -/
theorem coffObjectReadChecked_eq (hSize : file.length < 2 ^ 32) :
    coffObjectReadChecked filename file = .of (coffObjectRead filename file) := by
  unfold coffObjectReadChecked coffObjectRead
  by_cases hHeader : file.length < COFF_FILE_HEADER_SIZE
  · simp only [if_pos hHeader, Checked.throw_eq]
  simp only [if_neg hHeader]
  rw [access_of_le (by omega), Checked.of_ok_bind, readU16_record (by decide),
    readU16_record (by decide), readU32_record (by decide), readU32_record (by decide)]
  by_cases hMachine : linkerReadU16 file 0 ≠ COFF_MACHINE_AMD64
  · simp only [if_pos hMachine, Checked.throw_eq]
  simp only [if_neg hMachine, parseStringTable_checked hSize, parseSections_checked,
    parseSymbols_checked, Checked.pure_eq, Checked.of_bind]
  rfl

end Checks

-- ---
-- What is returned
-- ---

/-- Entry `i` of the symbol table: an entry that is not auxiliary has its auxiliary entries
in the table, and an auxiliary one belongs to an earlier entry that is not. -/
structure SymbolInside (symbols : List CoffSymbol) (i : Nat) (symbol : CoffSymbol) : Prop where
  rawIndex_eq : symbol.rawIndex = i
  primary : symbol.isAuxiliary = false →
    symbol.primarySymbolIndex = i ∧ i + symbol.auxiliaryCount < symbols.length
  auxiliary : symbol.isAuxiliary = true →
    ∃ owner, symbols[symbol.primarySymbolIndex]? = some owner ∧ owner.isAuxiliary = false ∧
      symbol.primarySymbolIndex < i ∧ i ≤ symbol.primarySymbolIndex + owner.auxiliaryCount

/-- Section `i`: its raw bytes and its relocations are those that its header names, and
they lie in the file. -/
structure SectionInside (file : List UInt8) (i : Nat) (section_ : CoffSection) : Prop where
  raw_inside : section_.rawData ≠ [] →
    linkerReadU32 file (COFF_FILE_HEADER_SIZE + i * COFF_SECTION_HEADER_SIZE + 20) +
      section_.rawData.length ≤ file.length
  raw_length : section_.rawData.length =
    linkerReadU32 file (COFF_FILE_HEADER_SIZE + i * COFF_SECTION_HEADER_SIZE + 16)
  raw_eq : section_.rawData = slice file
    (linkerReadU32 file (COFF_FILE_HEADER_SIZE + i * COFF_SECTION_HEADER_SIZE + 20))
    (linkerReadU32 file (COFF_FILE_HEADER_SIZE + i * COFF_SECTION_HEADER_SIZE + 16))
  relocations_inside : section_.relocations ≠ [] →
    linkerReadU32 file (COFF_FILE_HEADER_SIZE + i * COFF_SECTION_HEADER_SIZE + 24) +
      section_.relocations.length * COFF_RELOCATION_SIZE ≤ file.length
  relocations_length : section_.relocations.length =
    linkerReadU16 file (COFF_FILE_HEADER_SIZE + i * COFF_SECTION_HEADER_SIZE + 32)
  relocations_eq : ∀ r relocation, section_.relocations[r]? = some relocation →
    relocation = coffReaderParseRelocation file
      (linkerReadU32 file (COFF_FILE_HEADER_SIZE + i * COFF_SECTION_HEADER_SIZE + 24)) r

/-- **What the reader returns lies in the buffer and in its tables.** -/
structure ReadInside (file : List UInt8) (object : CoffObject) : Prop where
  sections_length : object.sections.length = linkerReadU16 file 2
  section_table : object.sections ≠ [] →
    COFF_FILE_HEADER_SIZE + object.sections.length * COFF_SECTION_HEADER_SIZE ≤ file.length
  sections_inside : ∀ i section_, object.sections[i]? = some section_ →
    SectionInside file i section_
  symbols_length : object.symbols.length = linkerReadU32 file 12
  symbol_table : object.symbols ≠ [] →
    linkerReadU32 file 8 + object.symbols.length * COFF_SYMBOL_SIZE ≤ file.length
  symbols_inside : ∀ i symbol, object.symbols[i]? = some symbol →
    SymbolInside object.symbols i symbol

variable {rest : List CoffSymbol}

section Returned

theorem sectionInside_of_ok {section_ : CoffSection}
    (hOk : coffReaderParseSection stringTable file i = .ok section_) :
    SectionInside file i section_ := by
  unfold coffReaderParseSection at hOk
  simp only at hOk
  split at hOk
  · cases hOk
  split at hOk
  · cases hOk
  rename_i hRaw
  split at hOk
  · cases hOk
  rename_i hRelocations
  cases hOk
  -- a table that is not empty passed its range check
  have hRange : ∀ {pointer size len : Nat}, ¬ (len > 0 ∧
      (!coffReaderRangeOk file.length pointer size) = true) → len > 0 →
        pointer + size ≤ file.length := by
    intro pointer size len hNot hSome
    refine coffReaderRangeOk_iff.mp ?_
    by_contra hBad
    exact hNot ⟨hSome, by simpa using hBad⟩
  have hRawLength : (slice file
      (linkerReadU32 file (COFF_FILE_HEADER_SIZE + i * COFF_SECTION_HEADER_SIZE + 20))
      (linkerReadU32 file (COFF_FILE_HEADER_SIZE + i * COFF_SECTION_HEADER_SIZE + 16))).length =
      linkerReadU32 file (COFF_FILE_HEADER_SIZE + i * COFF_SECTION_HEADER_SIZE + 16) := by
    by_cases hSome : linkerReadU32 file
        (COFF_FILE_HEADER_SIZE + i * COFF_SECTION_HEADER_SIZE + 16) > 0
    · exact length_slice_of_le (hRange hRaw hSome)
    · rw [length_slice]
      omega
  refine ⟨?_, hRawLength, rfl, ?_, by simp, ?_⟩
  · intro hNonempty
    rw [hRawLength]
    refine hRange hRaw ?_
    rw [← hRawLength]
    exact List.length_pos_iff.mpr hNonempty
  · intro hNonempty
    have hPos := List.length_pos_iff.mpr hNonempty
    simp only [List.length_map, List.length_range] at hPos ⊢
    exact hRange hRelocations hPos
  · intro r relocation hr
    simp only [List.getElem?_map, Option.map_eq_some_iff] at hr
    obtain ⟨r', hr', rfl⟩ := hr
    obtain ⟨-, rfl⟩ := List.getElem_of_getElem? hr'
    simp

theorem sections_of_ok {sectionCount : Nat} {sections : List CoffSection}
    (hOk : coffReaderParseSections sectionCount stringTable file = .ok sections) :
    sections.length = sectionCount ∧ (sections ≠ [] →
        COFF_FILE_HEADER_SIZE + sections.length * COFF_SECTION_HEADER_SIZE ≤ file.length) ∧
      ∀ i section_, sections[i]? = some section_ → SectionInside file i section_ := by
  unfold coffReaderParseSections at hOk
  split at hOk
  · cases hOk
    rename_i hNone
    exact ⟨hNone.symm, fun h => absurd rfl h, fun i _ hi => by cases hi⟩
  split at hOk
  · cases hOk
  rename_i hTable
  obtain ⟨hLength, hRounds⟩ := mapM_ok hOk
  rw [length_range] at hLength
  refine ⟨hLength, fun _ => ?_, ?_⟩
  · rw [hLength]
    exact coffReaderRangeOk_iff.mp (by simpa using hTable)
  · intro i section_ hi
    have hLt : i < sectionCount := by
      rw [← hLength]
      exact (List.getElem_of_getElem? hi).1
    obtain ⟨found, hFound, hParsed⟩ := hRounds i i (getElem?_range hLt)
    obtain rfl : section_ = found := some.inj (hi.symm.trans hFound)
    exact sectionInside_of_ok hParsed

/-- What the symbol loop returns from entry `i` on, when `aux` auxiliary entries of entry
`primary` are still to come. -/
structure SymbolsFrom (symbols : List CoffSymbol) (remaining i aux primary : Nat) : Prop where
  length_eq : symbols.length = remaining
  rawIndex_eq : ∀ k symbol, symbols[k]? = some symbol → symbol.rawIndex = i + k
  pending : ∀ k symbol, symbols[k]? = some symbol → k < aux →
    symbol.isAuxiliary = true ∧ symbol.primarySymbolIndex = primary
  primary_eq : ∀ k symbol, symbols[k]? = some symbol → symbol.isAuxiliary = false →
    symbol.primarySymbolIndex = i + k ∧ k + symbol.auxiliaryCount < remaining
  owned : ∀ k symbol, symbols[k]? = some symbol → aux ≤ k → symbol.isAuxiliary = true →
    ∃ j owner, symbols[j]? = some owner ∧ owner.isAuxiliary = false ∧
      symbol.primarySymbolIndex = i + j ∧ j < k ∧ k ≤ j + owner.auxiliaryCount

theorem SymbolsFrom.cons_auxiliary {remaining aux primary : Nat}
    (h : SymbolsFrom rest remaining (i + 1) aux primary) :
    SymbolsFrom (auxiliarySymbol i primary :: rest) (remaining + 1) i (aux + 1) primary := by
  refine ⟨by rw [length_cons, h.length_eq], ?_, ?_, ?_, ?_⟩
  · rintro (_ | k) symbol hk
    · cases hk
      rfl
    · rw [h.rawIndex_eq k symbol hk]
      omega
  · rintro (_ | k) symbol hk hLt
    · cases hk
      exact ⟨rfl, rfl⟩
    · exact h.pending k symbol hk (by omega)
  · rintro (_ | k) symbol hk hNot
    · cases hk
      cases hNot
    · obtain ⟨hPrimary, hCount⟩ := h.primary_eq k symbol hk hNot
      exact ⟨by omega, by omega⟩
  · rintro (_ | k) symbol hk hLe hAux
    · omega
    · obtain ⟨j, owner, hj, hOwner, hPrimary, hLt, hCovers⟩ :=
        h.owned k symbol hk (by omega) hAux
      exact ⟨j + 1, owner, hj, hOwner, by omega, by omega, by omega⟩

theorem SymbolsFrom.cons_primary {remaining primary primary' : Nat}
    {symbol : CoffSymbol} (h : SymbolsFrom rest remaining (i + 1) symbol.auxiliaryCount primary')
    (hOwner : 0 < symbol.auxiliaryCount → primary' = i) (hRaw : symbol.rawIndex = i)
    (hNotAux : symbol.isAuxiliary = false) (hPrimary : symbol.primarySymbolIndex = i)
    (hCount : symbol.auxiliaryCount ≤ remaining) :
    SymbolsFrom (symbol :: rest) (remaining + 1) i 0 primary := by
  refine ⟨by rw [length_cons, h.length_eq], ?_, ?_, ?_, ?_⟩
  · rintro (_ | k) found hk
    · cases hk
      exact hRaw
    · rw [h.rawIndex_eq k found hk]
      omega
  · intro k found _ hLt
    omega
  · rintro (_ | k) found hk hNot
    · cases hk
      exact ⟨hPrimary, by omega⟩
    · obtain ⟨hFound, hLt⟩ := h.primary_eq k found hk hNot
      exact ⟨by omega, by omega⟩
  · rintro (_ | k) found hk _ hAux
    · cases hk
      rw [hNotAux] at hAux
      cases hAux
    · by_cases hMine : k < symbol.auxiliaryCount
      · -- an auxiliary entry of the new one
        have hFound := (h.pending k found hk hMine).2
        exact ⟨0, symbol, rfl, hNotAux, by rw [hFound, hOwner (by omega)]; omega, by omega,
          by omega⟩
      · obtain ⟨j, owner, hj, hNotOwner, hFound, hLt, hCovers⟩ :=
          h.owned k found hk (by omega) hAux
        exact ⟨j + 1, owner, hj, hNotOwner, by omega, by omega, by omega⟩

theorem symbolsFrom_of_ok : ∀ (remaining i aux primary : Nat) (symbols : List CoffSymbol),
      coffReaderParseSymbolsFrom stringTable file pointerToSymbolTable remaining i aux primary =
        .ok symbols → SymbolsFrom symbols remaining i aux primary := by
  intro remaining
  induction remaining with
  | zero =>
    intro i aux primary symbols hOk
    have hNil : symbols = [] := by
      cases aux <;> exact (Except.ok.inj hOk).symm
    subst hNil
    refine ⟨rfl, ?_, ?_, ?_, ?_⟩ <;>
    · intro k symbol hk
      cases hk
  | succ remaining ih =>
    intro i aux primary symbols hOk
    cases aux with
    | succ aux =>
      rw [coffReaderParseSymbolsFrom] at hOk
      cases hRest : coffReaderParseSymbolsFrom stringTable file pointerToSymbolTable remaining
          (i + 1) aux primary with
      | error e =>
        rw [hRest] at hOk
        cases hOk
      | ok rest =>
        rw [hRest] at hOk
        cases hOk
        exact (ih (i + 1) aux primary rest hRest).cons_auxiliary
    | zero =>
      rw [coffReaderParseSymbolsFrom] at hOk
      simp only at hOk
      split at hOk
      · cases hOk
      split at hOk
      · cases hOk
      rename_i hCount
      generalize hNext : coffReaderParseSymbolsFrom stringTable file pointerToSymbolTable
        remaining (i + 1) _ _ = next at hOk
      cases next with
      | error e => cases hOk
      | ok rest =>
        cases hOk
        refine (ih (i + 1) _ _ rest hNext).cons_primary ?_ rfl rfl rfl (by simpa using hCount)
        intro hSome
        rw [if_pos (decide_eq_true hSome)]

theorem symbols_of_ok {symbolCount : Nat} {symbols : List CoffSymbol}
    (hOk : coffReaderParseSymbols pointerToSymbolTable symbolCount stringTable file = .ok symbols) :
    symbols.length = symbolCount ∧ (symbols ≠ [] →
        pointerToSymbolTable + symbols.length * COFF_SYMBOL_SIZE ≤ file.length) ∧
      ∀ i symbol, symbols[i]? = some symbol → SymbolInside symbols i symbol := by
  unfold coffReaderParseSymbols at hOk
  split at hOk
  · cases hOk
    rename_i hNone
    exact ⟨hNone.symm, fun h => absurd rfl h, fun i _ hi => by cases hi⟩
  split at hOk
  · cases hOk
  rename_i hTable
  have hFrom := symbolsFrom_of_ok symbolCount 0 0 0 symbols hOk
  refine ⟨hFrom.length_eq, fun _ => ?_, ?_⟩
  · rw [hFrom.length_eq]
    exact coffReaderRangeOk_iff.mp (by simpa using hTable)
  · intro i symbol hi
    refine ⟨by rw [hFrom.rawIndex_eq i symbol hi, Nat.zero_add], ?_, ?_⟩
    · intro hNot
      obtain ⟨hPrimary, hCount⟩ := hFrom.primary_eq i symbol hi hNot
      exact ⟨by omega, by rw [hFrom.length_eq]; exact hCount⟩
    · intro hAux
      obtain ⟨j, owner, hj, hOwner, hPrimary, hLt, hCovers⟩ :=
        hFrom.owned i symbol hi (Nat.zero_le _) hAux
      rw [Nat.zero_add] at hPrimary
      rw [hPrimary]
      exact ⟨owner, hj, hOwner, hLt, hCovers⟩

theorem readInside_of_ok {filename : String} {object : CoffObject}
    (hOk : coffObjectRead filename file = .ok object) : ReadInside file object := by
  unfold coffObjectRead at hOk
  simp only at hOk
  split at hOk
  · cases hOk
  split at hOk
  · cases hOk
  cases hStrings : coffReaderParseStringTable (linkerReadU32 file 8) (linkerReadU32 file 12)
      file with
  | error e =>
    rw [hStrings] at hOk
    cases hOk
  | ok stringTable =>
    rw [hStrings] at hOk
    cases hSections : coffReaderParseSections (linkerReadU16 file 2) stringTable file with
    | error e =>
      simp only [bind, Except.bind, hSections] at hOk
      cases hOk
    | ok sections =>
      cases hSymbols : coffReaderParseSymbols (linkerReadU32 file 8) (linkerReadU32 file 12)
          stringTable file with
      | error e =>
        simp only [bind, Except.bind, hSections, hSymbols] at hOk
        cases hOk
      | ok symbols =>
        simp only [bind, Except.bind, hSections, hSymbols] at hOk
        cases hOk
        obtain ⟨hLength, hTable, hInside⟩ := sections_of_ok hSections
        obtain ⟨hLength', hTable', hInside'⟩ := symbols_of_ok hSymbols
        exact ⟨hLength, hTable, hInside, hLength', hTable', hInside'⟩

end Returned

-- ---
-- Well-formed objects
-- ---

def stringTableStart (file : List UInt8) : Nat :=
  linkerReadU32 file 8 + linkerReadU32 file 12 * COFF_SYMBOL_SIZE

def stringTableOf (file : List UInt8) : Option (List UInt8) :=
  if linkerReadU32 file 8 = 0 ∨ stringTableStart file = file.length then none
  else some (slice file (stringTableStart file) (linkerReadU32 file (stringTableStart file)))

def IsString (stringTable : Option (List UInt8)) (offset : Nat) : Prop :=
  ∃ table, stringTable = some table ∧ 4 ≤ offset ∧ offset < table.length ∧
    (0 : UInt8) ∈ table.drop offset

def decimalValue (digits : List UInt8) : Nat :=
  digits.foldl (fun n d => n * 10 + (d.toNat - 48)) 0

def SectionNameOk (stringTable : Option (List UInt8)) (field : List UInt8) : Prop :=
  field.head? ≠ some 47 ∨ ((field.tail.takeWhile (· ≠ 0)).all isDigit = true ∧
      IsString stringTable (decimalValue (field.tail.takeWhile (· ≠ 0))))

/-- A symbol name stands in the field, or its first half is zero and the second the offset. -/
def SymbolNameOk (stringTable : Option (List UInt8)) (field : List UInt8) : Prop :=
  linkerReadU32 field 0 = 0 → linkerReadU32 field 4 ≠ 0 →
    IsString stringTable (linkerReadU32 field 4)

/-- The number of auxiliary entries that entry `i` announces. -/
def auxiliaryCountAt (file : List UInt8) (i : Nat) : Nat :=
  leNat (slice file (linkerReadU32 file 8 + i * COFF_SYMBOL_SIZE + 17) 1)

/-- The entries that are not auxiliary: the first, and the next behind the auxiliary entries
of one. -/
inductive PrimaryEntry (file : List UInt8) : Nat → Prop
  | first : PrimaryEntry file 0
  | next {i : Nat} : PrimaryEntry file i → i < linkerReadU32 file 12 →
      PrimaryEntry file (i + 1 + auxiliaryCountAt file i)

/-- A section that has a size and no bytes in the file: its characteristics say uninitialised data,
and neither code nor initialised data. -/
def OnlyUninitialised (file : List UInt8) (header : Nat) : Prop :=
  linkerReadU32 file (header + 36) &&& 0xE0 = 0x80

instance (file : List UInt8) (header : Nat) : Decidable (OnlyUninitialised file header) :=
  inferInstanceAs (Decidable (_ = _))

/-- The raw bytes that a section header announces lie in the file. -/
def RawInside (file : List UInt8) (header : Nat) : Prop :=
  0 < linkerReadU32 file (header + 16) →
    linkerReadU32 file (header + 20) + linkerReadU32 file (header + 16) ≤ file.length

/-- A well-formed section header. -/
structure SectionOk (file : List UInt8) (header : Nat) : Prop where
  name : SectionNameOk (stringTableOf file) (slice file header 8)
  raw : ¬ OnlyUninitialised file header → RawInside file header
  relocations : 0 < linkerReadU16 file (header + 32) →
    linkerReadU32 file (header + 24) + linkerReadU16 file (header + 32) * COFF_RELOCATION_SIZE ≤
      file.length

/-- **A well-formed AMD64 object**: the tables, the raw bytes and the relocations lie in the
file, names that stand in the string table are there, and auxiliary entries end with the
symbol table. -/
structure WellFormedCoff (file : List UInt8) : Prop where
  header : COFF_FILE_HEADER_SIZE ≤ file.length
  machine : linkerReadU16 file 0 = COFF_MACHINE_AMD64
  no_optional_header : linkerReadU16 file 16 = 0
  section_table : COFF_FILE_HEADER_SIZE + linkerReadU16 file 2 * COFF_SECTION_HEADER_SIZE ≤
    file.length
  symbol_table : linkerReadU32 file 8 + linkerReadU32 file 12 * COFF_SYMBOL_SIZE ≤ file.length
  string_table : linkerReadU32 file 8 ≠ 0 → stringTableStart file ≠ file.length →
    stringTableStart file + 4 ≤ file.length ∧ 4 ≤ linkerReadU32 file (stringTableStart file) ∧
      stringTableStart file + linkerReadU32 file (stringTableStart file) ≤ file.length
  sections : ∀ i < linkerReadU16 file 2,
    SectionOk file (COFF_FILE_HEADER_SIZE + i * COFF_SECTION_HEADER_SIZE)
  symbols : ∀ i, PrimaryEntry file i → i < linkerReadU32 file 12 → SymbolNameOk (stringTableOf file)
      (slice file (linkerReadU32 file 8 + i * COFF_SYMBOL_SIZE) 8) ∧
    i + auxiliaryCountAt file i < linkerReadU32 file 12

/-- The sizes of the uninitialised sections pass for ranges of the file. -/
def UninitialisedFit (file : List UInt8) : Prop :=
  ∀ i < linkerReadU16 file 2,
    OnlyUninitialised file (COFF_FILE_HEADER_SIZE + i * COFF_SECTION_HEADER_SIZE) →
      RawInside file (COFF_FILE_HEADER_SIZE + i * COFF_SECTION_HEADER_SIZE)

section Accepted

theorem stringFromTable_of_isString {offset : Nat} (h : IsString stringTable offset) :
    ∃ name, coffReaderStringFromTable stringTable offset = some name := by
  obtain ⟨table, rfl, hLow, hHigh, hEnds⟩ := h
  refine ⟨cString (table.drop offset), ?_⟩
  have hShort : ¬ table.length < 4 := by omega
  have hRange : ¬ (offset < 4 ∨ offset ≥ table.length) := by omega
  simp only [coffReaderStringFromTable, coffReaderDupCstringRange, if_neg hShort, if_neg hRange,
    if_pos hEnds]

theorem parseSectionNameOffset_eq : ∀ (bytes : List UInt8) (offset k : Nat),
    (bytes.takeWhile (· ≠ 0)).all isDigit = true → offset < 10 ^ k → k + bytes.length ≤ 9 →
    coffReaderParseSectionNameOffset bytes offset =
      some ((bytes.takeWhile (· ≠ 0)).foldl (fun n d => n * 10 + (d.toNat - 48)) offset) := by
  intro bytes
  induction bytes with
  | nil => intro offset k _ _ _; rfl
  | cons b rest ih =>
    intro offset k hDigits hOffset hLength
    rw [length_cons] at hLength
    by_cases hZero : b = 0
    · rw [coffReaderParseSectionNameOffset, if_pos hZero, hZero]
      rfl
    have hTake : (b :: rest).takeWhile (· ≠ 0) = b :: rest.takeWhile (· ≠ 0) := by
      rw [takeWhile_cons, if_pos (by simpa using hZero)]
    rw [hTake, all_cons, Bool.and_eq_true] at hDigits
    have hDigit : b.toNat - 48 ≤ 9 := by
      have hLe := hDigits.1
      unfold isDigit at hLe
      rw [Bool.and_eq_true, decide_eq_true_eq, decide_eq_true_eq] at hLe
      have := UInt8.le_iff_toNat_le.mp hLe.2
      rw [show (57 : UInt8).toNat = 57 from rfl] at this
      omega
    have hNext : offset * 10 + (b.toNat - 48) < 10 ^ (k + 1) := by
      omega
    have hSmall : (10 : Nat) ^ (k + 1) ≤ 10 ^ 9 := Nat.pow_le_pow_right (by decide) (by omega)
    have hMod : (offset * 10 + (b.toNat - 48)) % 2 ^ 32 = offset * 10 + (b.toNat - 48) :=
      Nat.mod_eq_of_lt (by omega)
    rw [coffReaderParseSectionNameOffset, if_neg hZero, if_pos hDigits.1, hMod, hTake, foldl_cons]
    exact ih _ (k + 1) hDigits.2 hNext (by omega)

theorem parseSectionName_accepts {field : List UInt8} (hLength : field.length ≤ 8)
    (h : SectionNameOk stringTable field) :
    ∃ name, coffReaderParseSectionName field stringTable = some name := by
  unfold coffReaderParseSectionName
  by_cases hSlash : field.head? = some 47
  · rw [if_pos hSlash]
    obtain ⟨hDigits, hString⟩ := h.resolve_left fun hNot => hNot hSlash
    have hTail : field.tail.length ≤ 8 := by
      rw [length_tail]
      omega
    rw [parseSectionNameOffset_eq field.tail 0 1 hDigits (by decide) (by omega)]
    exact stringFromTable_of_isString hString
  · rw [if_neg hSlash]
    exact ⟨_, rfl⟩

theorem parseSymbolName_accepts {field : List UInt8} (h : SymbolNameOk stringTable field) :
    ∃ name, coffReaderParseSymbolName field stringTable = some name := by
  unfold coffReaderParseSymbolName
  simp only
  split
  · rename_i hBoth
    exact stringFromTable_of_isString (h hBoth.1 hBoth.2)
  · exact ⟨_, rfl⟩

theorem mapM_accepts {f : α → Except String β} (l : List α) (h : ∀ a ∈ l, ∃ b, f a = .ok b) :
    ∃ bs, l.mapM f = .ok bs := by
  induction l with
  | nil => exact ⟨[], rfl⟩
  | cons a rest ih =>
    obtain ⟨b, hb⟩ := h a mem_cons_self
    obtain ⟨bs, hbs⟩ := ih fun c hc => h c (mem_cons_of_mem _ hc)
    refine ⟨b :: bs, ?_⟩
    rw [mapM_cons, hb, hbs]
    rfl

theorem parseStringTable_accepts (hWell : WellFormedCoff file) (hSize : file.length < 2 ^ 32)
    (hPointer : linkerReadU32 file 8 ≠ 0) :
    coffReaderParseStringTable (linkerReadU32 file 8) (linkerReadU32 file 12) file =
      .ok (stringTableOf file) := by
  have hTable := hWell.symbol_table
  rw [show linkerReadU32 file 8 + linkerReadU32 file 12 * COFF_SYMBOL_SIZE =
    stringTableStart file from rfl] at hTable
  unfold coffReaderParseStringTable stringTableOf
  rw [show linkerReadU32 file 8 + linkerReadU32 file 12 * COFF_SYMBOL_SIZE =
    stringTableStart file from rfl]
  simp only [if_neg (show ¬ stringTableStart file > file.length by omega)]
  by_cases hEnd : stringTableStart file = file.length
  · rw [if_pos hEnd, if_pos (.inr hEnd)]
  · obtain ⟨hHeader, hFour, hFits⟩ := hWell.string_table hPointer hEnd
    have hCast : stringTableStart file % 2 ^ 32 = stringTableStart file :=
      Nat.mod_eq_of_lt (by omega)
    have hNot : ¬ (linkerReadU32 file 8 = 0 ∨ stringTableStart file = file.length) := by
      rintro (h | h)
      · exact hPointer h
      · exact hEnd h
    simp only [if_neg hEnd, hCast, coffReaderRangeOk_iff.mpr hHeader,
      coffReaderRangeOk_iff.mpr hFits, Bool.not_true, Bool.false_eq_true, if_false,
      if_neg hNot, if_neg (show ¬ linkerReadU32 file (stringTableStart file) = 0 by omega),
      if_neg (show ¬ linkerReadU32 file (stringTableStart file) < 4 by omega)]

theorem parseSection_accepts
    (hOk : SectionOk file (COFF_FILE_HEADER_SIZE + i * COFF_SECTION_HEADER_SIZE))
    (hRaw : RawInside file (COFF_FILE_HEADER_SIZE + i * COFF_SECTION_HEADER_SIZE)) :
    ∃ section_, coffReaderParseSection (stringTableOf file) file i = .ok section_ := by
  obtain ⟨name, hParsed⟩ := parseSectionName_accepts
    (by rw [length_slice]; exact Nat.min_le_left _ _) hOk.name
  -- a range that is in the file passes its check
  have hPasses : ∀ {count offset length : Nat}, (0 < count → offset + length ≤ file.length) →
      ¬ (count > 0 ∧ (!coffReaderRangeOk file.length offset length) = true) := by
    rintro count offset length hInside ⟨hSome, hNot⟩
    rw [coffReaderRangeOk_iff.mpr (hInside hSome)] at hNot
    exact absurd hNot (by decide)
  unfold coffReaderParseSection
  simp only [hParsed, if_neg (hPasses hRaw), if_neg (hPasses hOk.relocations)]
  exact ⟨_, rfl⟩

section

variable (hWell : WellFormedCoff file)
include hWell

theorem parseSections_accepts (hFit : UninitialisedFit file) :
    ∃ sections, coffReaderParseSections (linkerReadU16 file 2) (stringTableOf file) file =
      .ok sections := by
  unfold coffReaderParseSections
  by_cases hNone : linkerReadU16 file 2 = 0
  · rw [if_pos hNone]
    exact ⟨[], rfl⟩
  · rw [if_neg hNone, coffReaderRangeOk_iff.mpr hWell.section_table]
    refine mapM_accepts _ fun i hi => ?_
    have hOk := hWell.sections i (mem_range.mp hi)
    by_cases hUninitialised :
        OnlyUninitialised file (COFF_FILE_HEADER_SIZE + i * COFF_SECTION_HEADER_SIZE)
    · exact parseSection_accepts hOk (hFit i (mem_range.mp hi) hUninitialised)
    · exact parseSection_accepts hOk (hOk.raw hUninitialised)

theorem parseSymbolsFrom_accepts :
    ∀ remaining i aux primary : Nat, i + remaining = linkerReadU32 file 12 → aux ≤ remaining →
      PrimaryEntry file (i + aux) →
      ∃ symbols, coffReaderParseSymbolsFrom (stringTableOf file) file (linkerReadU32 file 8)
        remaining i aux primary = .ok symbols := by
  intro remaining
  induction remaining with
  | zero =>
    intro i aux primary _ hAux _
    exact ⟨[], rfl⟩
  | succ remaining ih =>
    intro i aux primary hEnd hAux hEntry
    cases aux with
    | succ aux =>
      obtain ⟨rest, hRest⟩ := ih (i + 1) aux primary (by omega) (by omega)
        (by rwa [Nat.add_right_comm, Nat.add_assoc])
      rw [coffReaderParseSymbolsFrom, hRest]
      exact ⟨_, rfl⟩
    | zero =>
      obtain ⟨hName, hCount⟩ := hWell.symbols i hEntry (by omega)
      obtain ⟨name, hParsed⟩ := parseSymbolName_accepts hName
      have hRoom : ¬ leNat (slice file (linkerReadU32 file 8 + i * COFF_SYMBOL_SIZE + 17) 1) >
          remaining := by
        have hSame : auxiliaryCountAt file i =
          leNat (slice file (linkerReadU32 file 8 + i * COFF_SYMBOL_SIZE + 17) 1) := rfl
        omega
      obtain ⟨rest, hRest⟩ := ih (i + 1) (auxiliaryCountAt file i)
        (if decide (auxiliaryCountAt file i > 0) then i else primary) (by omega) (by omega)
        (hEntry.next (by omega))
      rw [coffReaderParseSymbolsFrom]
      simp only [hParsed, if_neg hRoom]
      unfold auxiliaryCountAt at hRest
      rw [hRest]
      exact ⟨_, rfl⟩

theorem parseSymbols_accepts :
    ∃ symbols, coffReaderParseSymbols (linkerReadU32 file 8) (linkerReadU32 file 12)
      (stringTableOf file) file = .ok symbols := by
  unfold coffReaderParseSymbols
  by_cases hNone : linkerReadU32 file 12 = 0
  · rw [if_pos hNone]
    exact ⟨[], rfl⟩
  · rw [if_neg hNone, coffReaderRangeOk_iff.mpr hWell.symbol_table]
    exact parseSymbolsFrom_accepts hWell _ 0 0 0 (Nat.zero_add _) (Nat.zero_le _) .first

/-- **Well-formed objects with a symbol table are accepted**, if no uninitialised section is too
large. -/
theorem coffObjectRead_accepts (hSize : file.length < 2 ^ 32) (hPointer : linkerReadU32 file 8 ≠ 0)
    (hFit : UninitialisedFit file) : ∃ object, coffObjectRead filename file = .ok object := by
  obtain ⟨sections, hSections⟩ := parseSections_accepts hWell hFit
  obtain ⟨symbols, hSymbols⟩ := parseSymbols_accepts hWell
  have hHeader : ¬ file.length < COFF_FILE_HEADER_SIZE := by
    have := hWell.header
    omega
  unfold coffObjectRead
  simp only [if_neg hHeader, hWell.machine, ne_eq, not_true_eq_false, if_false,
    parseStringTable_accepts hWell hSize hPointer, bind, Except.bind, hSections, hSymbols]
  exact ⟨_, rfl⟩

end

end Accepted

/-- **The reader on any bytes below 4 GiB**: it reads nothing outside the buffer, what it
returns lies in the buffer and in its tables, and it accepts every well-formed object that
has a symbol table and no uninitialised section that is too large. -/
theorem coffObjectRead_faithful (filename : String) (file : List UInt8)
    (hSize : file.length < 2 ^ 32) :
    coffObjectReadChecked filename file = .of (coffObjectRead filename file) ∧
      (∀ object, coffObjectRead filename file = .ok object → ReadInside file object) ∧
      (WellFormedCoff file → linkerReadU32 file 8 ≠ 0 → UninitialisedFit file →
        ∃ object, coffObjectRead filename file = .ok object) :=
  ⟨coffObjectReadChecked_eq filename hSize, fun _ hOk => readInside_of_ok hOk,
    fun hWell hPointer hFit => coffObjectRead_accepts filename hWell hSize hPointer hFit⟩

/-- A section header, from its name field on. -/
def sectionHeaderBytes (name : List UInt8) (size pointer relocations : UInt8)
    (relocationCount : UInt8) (characteristics : List UInt8) : List UInt8 :=
  name ++ List.replicate 8 0 ++ [size, 0, 0, 0, pointer, 0, 0, 0, relocations, 0, 0, 0] ++
    List.replicate 4 0 ++ [relocationCount, 0, 0, 0] ++ characteristics

/-- Code with a relocation, uninitialised data, and a symbol with a long name and an auxiliary
record. -/
def longNameObject : List UInt8 :=
  -- file header
  [0x64, 0x86, 2, 0, 0, 0, 0, 0, 112, 0, 0, 0, 2, 0, 0, 0, 0, 0, 0, 0] ++
  -- `.text` and `.bss`
  sectionHeaderBytes [46, 116, 101, 120, 116, 0, 0, 0] 2 100 102 1 [0x20, 0, 0, 0x60] ++
  sectionHeaderBytes [46, 98, 115, 115, 0, 0, 0, 0] 4 0 0 0 [0x80, 0, 0, 0xC0] ++
  -- raw data and relocation
  [0x90, 0xC3] ++ [0, 0, 0, 0, 0, 0, 0, 0, 4, 0] ++
  -- the symbol and its auxiliary record
  [0, 0, 0, 0, 4, 0, 0, 0, 0, 0, 0, 0, 1, 0, 0, 0, 2, 1] ++ List.replicate 18 0 ++
  -- string table
  [14, 0, 0, 0, 108, 111, 110, 103, 95, 110, 97, 109, 101, 0]

set_option maxRecDepth 4000 in
theorem longNameObject_wellFormed : WellFormedCoff longNameObject where
  header := by decide
  machine := by decide
  no_optional_header := by decide
  section_table := by decide
  symbol_table := by decide
  string_table := fun _ _ => by decide
  sections := by
    intro i hi
    have hTwo : i < 2 := hi
    interval_cases i
    · exact ⟨Or.inl (by decide), fun _ _ => by decide, fun _ => by decide⟩
    · exact ⟨Or.inl (by decide), fun _ _ => by decide, fun _ => by decide⟩
  symbols := by
    intro i _ hi
    have hTwo : i < 2 := hi
    interval_cases i
    · exact ⟨fun _ _ => ⟨_, rfl, by decide, by decide, by decide⟩, by decide⟩
    · exact ⟨fun _ hOffset => absurd (by decide) hOffset, by decide⟩

set_option maxRecDepth 4000 in
theorem coffObjectRead_faithful_longName :
    coffObjectReadChecked "a.obj" longNameObject = .of (coffObjectRead "a.obj" longNameObject) ∧
      (∀ object, coffObjectRead "a.obj" longNameObject = .ok object →
        ReadInside longNameObject object) ∧
      ∃ object, coffObjectRead "a.obj" longNameObject = .ok object := by
  obtain ⟨hChecked, hInside, hAccepts⟩ := coffObjectRead_faithful "a.obj" longNameObject (by decide)
  refine ⟨hChecked, hInside, hAccepts longNameObject_wellFormed (by decide) ?_⟩
  intro i hi _ _
  have hTwo : i < 2 := hi
  interval_cases i
  · decide
  · decide

/-- An object whose relocation names symbol 7 of an empty symbol table. -/
def danglingRelocation : List UInt8 :=
  [0x64, 0x86, 1, 0, 0, 0, 0, 0, 70, 0, 0, 0, 0, 0, 0, 0, 0, 0, 0, 0] ++
  sectionHeaderBytes [46, 116, 101, 120, 116, 0, 0, 0] 0 0 60 1 [0, 0, 0, 0] ++
  [0, 0, 0, 0, 7, 0, 0, 0, 4, 0]

def IndexesInside (object : CoffObject) : Prop :=
  (∀ section_ ∈ object.sections, ∀ relocation ∈ section_.relocations,
      relocation.symbolTableIndex < object.symbols.length) ∧
    ∀ symbol ∈ object.symbols, symbol.sectionNumber ≤ object.sections.length

/-- An empty object without a symbol table. -/
def bareHeader : List UInt8 := [0x64, 0x86] ++ List.replicate 18 0

theorem bareHeader_wellFormed : WellFormedCoff bareHeader where
  header := by decide
  machine := by decide
  no_optional_header := by decide
  section_table := by decide
  symbol_table := by decide
  string_table := fun hPointer => absurd (by decide) hPointer
  sections := fun i hi => absurd hi (by
    exact Nat.not_lt_zero i)
  symbols := fun i _ hi => absurd hi (by
    exact Nat.not_lt_zero i)

/-- An object with nothing but 200 bytes of uninitialised data. -/
def zeroedObject : List UInt8 :=
  [0x64, 0x86, 1, 0, 0, 0, 0, 0, 60, 0, 0, 0, 0, 0, 0, 0, 0, 0, 0, 0] ++
  sectionHeaderBytes [46, 98, 115, 115, 0, 0, 0, 0] 200 0 0 0 [0x80, 0, 0, 0xC0]

theorem zeroedObject_wellFormed : WellFormedCoff zeroedObject where
  header := by decide
  machine := by decide
  no_optional_header := by decide
  section_table := by decide
  symbol_table := by decide
  string_table := fun _ hEnd => absurd (by decide) hEnd
  sections := by
    intro i hi
    have hOne : i < 1 := hi
    interval_cases i
    exact ⟨Or.inl (by decide), fun hNot => absurd (by decide) hNot, fun hSome => by
      exact absurd hSome (by decide)⟩
  symbols := fun i _ hi => absurd hi (by
    exact Nat.not_lt_zero i)

/-- **An index is passed on as it is**, and two well-formed objects are not accepted: one
without a symbol table, and one with more uninitialised data than the file has bytes. -/
theorem coffObjectRead_passes_index :
    (∃ object, coffObjectRead "a.obj" danglingRelocation = .ok object ∧ ¬ IndexesInside object) ∧
    (WellFormedCoff bareHeader ∧ ¬ ∃ object, coffObjectRead "a.obj" bareHeader = .ok object) ∧
    WellFormedCoff zeroedObject ∧ linkerReadU32 zeroedObject 8 ≠ 0 ∧
      ¬ ∃ object, coffObjectRead "a.obj" zeroedObject = .ok object := by
  refine ⟨⟨⟨[⟨cLit ".text", .text, 0, 0, [], [⟨0, 7, 4⟩]⟩], []⟩, by decide, ?_⟩,
    ⟨bareHeader_wellFormed, ?_⟩, zeroedObject_wellFormed, by decide, ?_⟩
  · rintro ⟨hRelocations, -⟩
    have hLt := hRelocations _ mem_cons_self ⟨0, 7, 4⟩ mem_cons_self
    exact Nat.not_lt_zero _ hLt
  · rintro ⟨object, hOk⟩
    cases hOk
  · rintro ⟨object, hOk⟩
    cases hOk

end Mettle.Linker
