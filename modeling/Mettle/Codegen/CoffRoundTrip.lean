import Mettle.Codegen.CoffFile
import Mettle.Linker.Relocation

/-!
# Mettle — COFF write/read round trip

`binary_emitter_write_coff_object_file` and `coff_object_read` share only the byte
format. This module follows every field through both: for a file whose layout fits
(`LayoutFits`) the reader returns `expectedObject`, the emitter's tables with every
field cut to the width it has in the file. The round trip is then exact if and only
if no field loses anything (`FieldsFit`); in particular every relocation addend must
already stand in the patched bytes, because the writer never writes it.
-/

namespace Mettle.Codegen

open Mettle.Lib Mettle.Linker List Option

/-! ## What the reader makes of an emitter -/

def expectedRelocation (emitter : BinaryEmitter) (relocation : BinaryRelocation) :
    CoffRelocation :=
  { virtualAddress := relocation.offset % 2 ^ 32
    symbolTableIndex := (binaryEmitterFindSymbolIndex emitter relocation.symbolName).getD 0
    type := binaryEmitterMapRelocationKind relocation.kind }

def expectedSection (emitter : BinaryEmitter) (section_ : BinarySection) (i : Nat) : CoffSection :=
  { name := section_.name
    kind := coffSectionKindFromName section_.name
    -- the header field is always written as zero
    virtualSize := 0
    characteristics :=
      (if section_.characteristics = 0 then
        binaryEmitterDefaultSectionCharacteristics section_.kind
      else section_.characteristics) % 2 ^ 32
    rawData := section_.fileBytes
    relocations := (emitter.relocationsOf i).map (expectedRelocation emitter) }

def writtenSectionNumber : Option Nat → Nat
  | none => 0
  | some sectionIndex => sectionIndex + 1

def expectedSymbol (emitter : BinaryEmitter) (symbol : BinarySymbol) (j : Nat) : CoffSymbol :=
  { rawIndex := j
    name := some symbol.name
    value := symbol.value % 2 ^ 32
    sectionNumber := toInt16 (writtenSectionNumber symbol.sectionIndex % 2 ^ 16)
    type := symbolType emitter.sections symbol.sectionIndex
    storageClass := storageClassOf symbol.binding
    auxiliaryCount := 0
    isAuxiliary := false
    primarySymbolIndex := j
    hasAuxiliaryRecord := false
    auxSectionLength := 0
    auxSectionRelocationCount := 0
    auxSectionLineNumberCount := 0 }

/-- The section symbol of section `i`; its auxiliary record carries the size. -/
def expectedSectionSymbol (emitter : BinaryEmitter) (section_ : BinarySection) (i : Nat) :
    CoffSymbol :=
  { rawIndex := emitter.symbols.length + i * 2
    name := some section_.name
    value := 0
    sectionNumber := toInt16 ((i + 1) % 2 ^ 16)
    type := 0
    storageClass := COFF_STORAGE_CLASS_STATIC
    auxiliaryCount := 1
    isAuxiliary := false
    primarySymbolIndex := emitter.symbols.length + i * 2
    hasAuxiliaryRecord := true
    auxSectionLength := max section_.virtualSize section_.data.length % 2 ^ 32
    auxSectionRelocationCount := (emitter.relocationsOf i).length
    auxSectionLineNumberCount := 0 }

def expectedSectionRecords (emitter : BinaryEmitter) (section_ : BinarySection) (i : Nat) :
    List CoffSymbol :=
  [expectedSectionSymbol emitter section_ i,
    auxiliarySymbol (emitter.symbols.length + i * 2 + 1) (emitter.symbols.length + i * 2)]

def expectedObject (emitter : BinaryEmitter) : CoffObject :=
  { sections := emitter.sections.zipIdx.map fun row => expectedSection emitter row.1 row.2
    symbols := (emitter.symbols.zipIdx.map fun row => expectedSymbol emitter row.1 row.2) ++
      emitter.sections.zipIdx.flatMap fun row => expectedSectionRecords emitter row.1 row.2 }

/-! ## Reading the tables back -/

variable {emitter : BinaryEmitter}

theorem parseSymbolName_write (hFits : LayoutFits emitter) {p : Nat} {name : CString}
    (hp : (allNames emitter)[p]? = some name) (hName : (0 : UInt8) ∉ name) :
    coffReaderParseSymbolName
      (binaryEmitterWriteSymbolName name ((nameOffsets (allNames emitter) 4).getD p 0))
      (some (stringTableBytes emitter)) = some name := by
  unfold binaryEmitterWriteSymbolName
  by_cases hLen : name.length ≤ 8
  · rw [if_pos hLen]
    exact parseSymbolName_short hName _
  · obtain ⟨hTable, hNe, hLt⟩ := lookup_name hFits hp (by omega) hName
    rw [if_neg hLen]
    exact parseSymbolName_long hNe hLt hTable

variable {i : Nat} {section_ : BinarySection}

theorem getElem?_allNames_section (hi : emitter.sections[i]? = some section_) :
    (allNames emitter)[i]? = some section_.name := by
  have hLt := (List.getElem_of_getElem? hi).1
  rw [allNames, List.getElem?_append_left (by rwa [List.length_map]), List.getElem?_map, hi]
  rfl

variable {symbol : BinarySymbol}

theorem getElem?_allNames_symbol {j : Nat} (hj : emitter.symbols[j]? = some symbol) :
    (allNames emitter)[emitter.sections.length + j]? = some symbol.name := by
  rw [allNames, getElem?_append_right (by rw [length_map]; omega), length_map,
    Nat.add_sub_cancel_left, getElem?_map, hj]
  rfl

variable {n : Nat}

theorem u16_leBytes (h : n ≤ 0xFFFF) : leNat (leBytes 2 n) = n :=
  leNat_leBytes_of_lt (by omega)

theorem u32_leBytes (h : n < 2 ^ 32) : leNat (leBytes 4 n) = n :=
  leNat_leBytes_of_lt (by omega)

variable {relocation : BinaryRelocation} {bytes : List UInt8}

section Read

variable {headers relocs symbols : List (List UInt8)}
  (hWf : WellFormed emitter) (hFits : LayoutFits emitter)
  (hW : Written emitter bytes headers relocs symbols)
include hW

theorem Written.read_header (hFits : LayoutFits emitter) :
    linkerReadU16 bytes 0 = COFF_MACHINE_AMD64 ∧ linkerReadU16 bytes 2 = emitter.sections.length ∧
      linkerReadU32 bytes 8 = symbolTableStart emitter ∧
      linkerReadU32 bytes 12 = emitter.symbols.length + emitter.sections.length * 2 := by
  have hSections := hW.sections_le
  have hRecords := hW.records_le
  rw [hW.bytes_eq]
  unfold coffFileHeader
  refine ⟨u16_leBytes (by decide), u16_leBytes hSections, ?_, ?_⟩
  · rw [coffLayout_pointerToSymbolTable hFits]
    exact u32_leBytes hFits.start
  · exact u32_leBytes (show emitter.symbols.length + emitter.sections.length * 2 < _ by omega)

theorem Written.read_stringTable (hFits : LayoutFits emitter) :
    coffReaderParseStringTable (symbolTableStart emitter)
      (emitter.symbols.length + emitter.sections.length * 2) bytes =
      .ok (some (stringTableBytes emitter)) := by
  obtain ⟨pre, hBytes, hPre⟩ := hW.bytes_split hFits
  have hOffset : symbolTableStart emitter +
      (emitter.symbols.length + emitter.sections.length * 2) * COFF_SYMBOL_SIZE = pre.length := by
    rw [hPre, COFF_SYMBOL_SIZE]
    omega
  have hTable := length_stringTableBytes emitter
  have hLong : 4 ≤ stringTableLength emitter := Nat.le_add_right 4 _
  have hLen : bytes.length = pre.length + stringTableLength emitter := by
    rw [hBytes, length_append, hTable]
  have hSize : linkerReadU32 bytes pre.length = stringTableLength emitter := by
    rw [linkerReadU32, hBytes, slice_append_skip (Nat.le_refl _), Nat.sub_self, stringTableBytes,
      slice_append_first (length_leBytes 4 _).symm]
    exact u32_leBytes hFits.strings
  -- the 32-bit cast of the offset only makes it smaller, so the range checks still pass
  have hRange : ∀ n ≤ stringTableLength emitter,
      coffReaderRangeOk bytes.length (pre.length % 2 ^ 32) n = true := by
    intro n hn
    unfold coffReaderRangeOk
    rw [if_neg (by omega), if_neg (by omega)]
  unfold coffReaderParseStringTable
  rw [hOffset, if_neg (by omega), if_neg (by omega), hRange 4 hLong, hSize, if_neg (by decide),
    if_neg (by omega), if_neg (by omega), hRange _ (Nat.le_refl _), if_neg (by decide)]
  have hSlice : slice bytes pre.length (stringTableLength emitter) = stringTableBytes emitter := by
    rw [hBytes, slice_append_skip (Nat.le_refl _), Nat.sub_self, slice_zero_self hTable.symm]
  rw [hSlice]

theorem Written.read_relocation {k : Nat} (hi : i < emitter.sections.length)
    (hk : (emitter.relocationsOf i)[k]? = some relocation) :
    coffReaderParseRelocation bytes (20 + emitter.sections.length * 40 + (rawLengths emitter).sum +
      ((relocLengths emitter).take i).sum) k = expectedRelocation emitter relocation := by
  obtain ⟨record, hRun, hSlice⟩ := hW.slice_reloc hi hk
  obtain ⟨symbolIndex, hFind, hAddress, hIndex, hType⟩ := writeRelocation_fields hRun
  have hLt : symbolIndex < 2 ^ 32 := by
    unfold binaryEmitterFindSymbolIndex at hFind
    split at hFind
    · cases hFind
    · split at hFind
      · cases hFind
        omega
      · cases hFind
  have h₀ := @hSlice 0 4 (by omega)
  have h₄ := @hSlice 4 4 (by omega)
  have h₈ := @hSlice 8 2 (by omega)
  rw [Nat.add_zero, hAddress] at h₀
  rw [hIndex] at h₄
  rw [hType] at h₈
  unfold coffReaderParseRelocation linkerReadU16 linkerReadU32
  dsimp only [COFF_RELOCATION_SIZE]
  rw [h₀, h₄, h₈, u32_leBytes hLt, leNat_leBytes]
  unfold expectedRelocation
  rw [hFind, u16_leBytes (by cases relocation.kind <;> decide)]
  rfl

section

variable (hWf : WellFormed emitter) (hFits : LayoutFits emitter)
include hWf hFits

theorem Written.read_section (hi : emitter.sections[i]? = some section_) :
    coffReaderParseSection (some (stringTableBytes emitter)) bytes i =
      .ok (expectedSection emitter section_ i) := by
  have hLt := (List.getElem_of_getElem? hi).1
  obtain ⟨header, hHeader, hRun⟩ := hW.header i section_ hi
  obtain ⟨-, hField, hVirtual, hSize, hRaw, hReloc, hCount, hChar⟩ := writeSectionHeader_fields hRun
  have hRead : ∀ off len, off + len ≤ 40 →
      slice bytes (COFF_FILE_HEADER_SIZE + i * COFF_SECTION_HEADER_SIZE + off) len =
        slice header off len := fun off len h => hW.slice_header hHeader h
  -- the name, through its field or through the string table
  have hNul := hWf.sectionName section_ (List.mem_of_getElem? hi)
  have hName := (parseSectionName_write hNul hField (hFits.names section_ (List.mem_of_getElem? hi))
    (fun hLong => by
      have hLookup := lookup_name hFits (getElem?_allNames_section hi) hLong hNul
      rw [← sectionNameOffset_eq hLt] at hLookup
      exact ⟨hLookup.1, hLookup.2.2⟩)).1
  -- the raw data
  have hStart := hFits.start
  have hRawOffset := coffLayout_rawOffset hFits hi
  have hRelocOffset := coffLayout_relocOffset hFits hLt
  have hTakeRaw : ((rawLengths emitter).take i).sum + section_.fileBytes.length ≤
      (rawLengths emitter).sum := by
    have hGet : (rawLengths emitter)[i]? = some section_.fileBytes.length := by
      rw [rawLengths, List.getElem?_map, hi]
      rfl
    exact sum_take_add_le hGet
  have hTakeReloc : ((relocLengths emitter).take i).sum + (emitter.relocationsOf i).length * 10 ≤
      (relocLengths emitter).sum := by
    have hGet : (relocLengths emitter)[i]? = some ((emitter.relocationsOf i).length * 10) := by
      rw [relocLengths, List.getElem?_map, List.getElem?_range hLt]
      rfl
    exact sum_take_add_le hGet
  obtain ⟨pre, hBytes, hPre⟩ := hW.bytes_split hFits
  have hLen : symbolTableStart emitter ≤ bytes.length := by
    rw [hBytes, List.length_append, hPre]
    omega
  unfold symbolTableStart at hStart hLen
  have hRawData : slice bytes ((coffLayout emitter).rawOffsets.getD i 0) section_.fileBytes.length =
      section_.fileBytes := by
    by_cases hEmpty : section_.fileBytes.length > 0
    · rw [hRawOffset, if_pos hEmpty]
      exact hW.slice_raw hi
    · have hNil : section_.fileBytes = [] := List.length_eq_zero_iff.mp (by omega)
      rw [hNil]
      rfl
  -- the relocation table
  have hCountLe := hW.relocCount_le i hLt
  have hRelocs : (List.range (emitter.relocationsOf i).length).map
      (coffReaderParseRelocation bytes ((coffLayout emitter).relocOffsets.getD i 0)) =
      (emitter.relocationsOf i).map (expectedRelocation emitter) := by
    apply List.ext_getElem?
    intro k
    rw [List.getElem?_map, List.getElem?_map]
    by_cases hk : k < (emitter.relocationsOf i).length
    · rw [List.getElem?_range hk, List.getElem?_eq_getElem hk, Option.map_some, Option.map_some,
        hRelocOffset, if_pos (by omega),
        hW.read_relocation hLt (List.getElem?_eq_getElem hk)]
    · rw [List.getElem?_eq_none (by rw [List.length_range]; omega),
        List.getElem?_eq_none (by omega)]
      rfl
  have hField₀ := hRead 0 8 (by omega)
  rw [Nat.add_zero] at hField₀
  unfold coffReaderParseSection linkerReadU16 linkerReadU32
  dsimp only
  rw [hField₀, hName]
  dsimp only
  rw [hRead 8 4 (by omega), hRead 16 4 (by omega), hRead 20 4 (by omega), hRead 24 4 (by omega),
    hRead 32 2 (by omega), hRead 36 4 (by omega), hVirtual, hSize, hRaw, hReloc, hCount, hChar,
    u32_leBytes (by omega : section_.fileBytes.length < 2 ^ 32), u16_leBytes hCountLe,
    u32_leBytes (by rw [hRawOffset]; split <;> omega),
    u32_leBytes (by rw [hRelocOffset]; split <;> omega), leNat_leBytes, leNat_leBytes, hRawData,
    hRelocs]
  have hRawRange : ¬ (section_.fileBytes.length > 0 ∧ (!coffReaderRangeOk bytes.length
      ((coffLayout emitter).rawOffsets.getD i 0) section_.fileBytes.length) = true) := by
    rintro ⟨hPos, hBad⟩
    rw [hRawOffset, if_pos hPos, coffReaderRangeOk, if_neg (by omega), if_neg (by omega)] at hBad
    cases hBad
  have hRelocRange : ¬ ((emitter.relocationsOf i).length > 0 ∧ (!coffReaderRangeOk bytes.length
      ((coffLayout emitter).relocOffsets.getD i 0)
      ((emitter.relocationsOf i).length * COFF_RELOCATION_SIZE)) = true) := by
    rintro ⟨hPos, hBad⟩
    rw [hRelocOffset, if_pos (by omega), coffReaderRangeOk, COFF_RELOCATION_SIZE,
      if_neg (by omega), if_neg (by omega)] at hBad
    cases hBad
  rw [if_neg hRawRange, if_neg hRelocRange]
  rfl

theorem Written.read_sections :
    coffReaderParseSections emitter.sections.length (some (stringTableBytes emitter)) bytes =
      .ok (expectedObject emitter).sections := by
  unfold coffReaderParseSections
  by_cases hZero : emitter.sections.length = 0
  · rw [if_pos hZero]
    have hNil : emitter.sections = [] := length_eq_zero_iff.mp hZero
    rw [expectedObject, hNil]
    rfl
  · have hStart := hFits.start
    obtain ⟨pre, hBytes, hPre⟩ := hW.bytes_split hFits
    have hLen : symbolTableStart emitter ≤ bytes.length := by
      rw [hBytes, length_append, hPre]
      omega
    unfold symbolTableStart at hLen
    have hRange : coffReaderRangeOk bytes.length COFF_FILE_HEADER_SIZE
        (emitter.sections.length * COFF_SECTION_HEADER_SIZE) = true := by
      rw [coffReaderRangeOk, COFF_FILE_HEADER_SIZE, COFF_SECTION_HEADER_SIZE, if_neg (by omega),
        if_neg (by omega)]
    rw [if_neg hZero, hRange, if_neg (by decide)]
    apply mapM_range_eq_ok
    · rw [expectedObject, length_map, length_zipIdx]
    · intro i y hy
      rw [expectedObject, getElem?_map, getElem?_zipIdx] at hy
      obtain ⟨row, hRow, rfl⟩ := map_eq_some_iff.mp hy
      obtain ⟨section_, hSection, rfl⟩ := map_eq_some_iff.mp hRow
      rw [Nat.zero_add]
      exact hW.read_section hWf hFits hSection

theorem Written.read_symbol {j : Nat} (hj : emitter.symbols[j]? = some symbol) (remaining p : Nat) :
    coffReaderParseSymbolsFrom (some (stringTableBytes emitter)) bytes (symbolTableStart emitter)
        (remaining + 1) j 0 p =
      (do
        let rest ← coffReaderParseSymbolsFrom (some (stringTableBytes emitter)) bytes
          (symbolTableStart emitter) remaining (j + 1) 0 p
        return expectedSymbol emitter symbol j :: rest) := by
  obtain ⟨record, hRecord, hRun⟩ := hW.symbol j symbol hj
  have hEq : record = symbolRecord symbol ((coffLayout emitter).symbolNameOffsets.getD j 0)
      (writtenSectionNumber symbol.sectionIndex)
      (symbolType emitter.sections symbol.sectionIndex) := by
    unfold binaryEmitterWriteSymbol at hRun
    split at hRun
    · rename_i hNone
      rw [hNone, ← Except.ok.inj hRun]
      rfl
    · rename_i k hSome
      split at hRun
      · cases hRun
      · rw [hSome, ← Except.ok.inj hRun]
        rfl
  obtain ⟨hName, hValue, hNumber, hType, hClass, hAux⟩ := symbolRecord_fields symbol
    ((coffLayout emitter).symbolNameOffsets.getD j 0) (writtenSectionNumber symbol.sectionIndex)
    (symbolType emitter.sections symbol.sectionIndex)
  rw [← hEq] at hName hValue hNumber hType hClass hAux
  have hRead : ∀ off len, off + len ≤ 18 →
      slice bytes (symbolTableStart emitter + j * COFF_SYMBOL_SIZE + off) len =
        slice record off len := fun off len h => hW.slice_symbol hRecord h
  have hRead₀ := hRead 0 8 (by omega)
  rw [Nat.add_zero] at hRead₀
  have hParse := parseSymbolName_write hFits (getElem?_allNames_symbol hj)
    (hWf.symbolName symbol (mem_of_getElem? hj))
  rw [← symbolNameOffset_eq j] at hParse
  have hTypeLe : symbolType emitter.sections symbol.sectionIndex ≤ 0xFFFF := by
    unfold symbolType
    split
    · split <;> decide
    · decide
  have hClassLt : storageClassOf symbol.binding < 256 ^ 1 := by
    cases symbol.binding <;> decide
  rw [coffReaderParseSymbolsFrom]
  unfold linkerReadU16 linkerReadU32 coffReaderI16 linkerReadU16
  rw [hRead₀, hName, hParse]
  rw [hRead 17 1 (by omega), hRead 8 4 (by omega), hRead 12 2 (by omega), hRead 14 2 (by omega),
    hRead 16 1 (by omega), hAux, hValue, hNumber, hType, hClass, u16_leBytes hTypeLe,
    leNat_leBytes_of_lt hClassLt, leNat_leBytes, leNat_leBytes, leNat_leBytes]
  rfl

theorem Written.read_sectionSymbol (hi : emitter.sections[i]? = some section_) (remaining p : Nat) :
    coffReaderParseSymbolsFrom (some (stringTableBytes emitter)) bytes (symbolTableStart emitter)
        (remaining + 2) (emitter.symbols.length + i * 2) 0 p =
      (do
        let rest ← coffReaderParseSymbolsFrom (some (stringTableBytes emitter)) bytes
          (symbolTableStart emitter) remaining (emitter.symbols.length + (i + 1) * 2) 0
          (emitter.symbols.length + i * 2)
        return expectedSectionRecords emitter section_ i ++ rest) := by
  have hLt := (List.getElem_of_getElem? hi).1
  obtain ⟨hName, hValue, hNumber, hType, hClass, hAux, hSize, hCount, hLines⟩ :=
    sectionSymbol_fields section_ i ((coffLayout emitter).sectionNameOffsets.getD i 0)
      (emitter.relocationsOf i).length
  have hEntry : symbolTableStart emitter + (emitter.symbols.length + i * 2) * COFF_SYMBOL_SIZE =
      symbolTableStart emitter + emitter.symbols.length * 18 + i * 36 := by
    rw [COFF_SYMBOL_SIZE]
    omega
  have hRead : ∀ off len, off + len ≤ 36 →
      slice bytes (symbolTableStart emitter + emitter.symbols.length * 18 + i * 36 + off) len =
        slice (binaryEmitterWriteSectionSymbol section_ i
          ((coffLayout emitter).sectionNameOffsets.getD i 0) (emitter.relocationsOf i).length)
          off len := fun off len h => hW.slice_sectionSymbol hi h
  have hRead₀ := hRead 0 8 (by omega)
  rw [Nat.add_zero] at hRead₀
  have hParse := parseSymbolName_write hFits (getElem?_allNames_section hi)
    (hWf.sectionName section_ (List.mem_of_getElem? hi))
  rw [← sectionNameOffset_eq hLt] at hParse
  rw [coffReaderParseSymbolsFrom]
  unfold linkerReadU16 linkerReadU32 coffReaderI16 linkerReadU16
  rw [hEntry, hRead₀, hName, hParse]
  dsimp only
  rw [Nat.add_assoc _ COFF_SYMBOL_SIZE, Nat.add_assoc _ COFF_SYMBOL_SIZE,
    show COFF_SYMBOL_SIZE = 18 from rfl,
    hRead 17 1 (by omega), hRead 8 4 (by omega), hRead 12 2 (by omega), hRead 14 2 (by omega),
    hRead 16 1 (by omega), hRead 18 4 (by omega), hRead (18 + 4) 2 (by omega),
    hRead (18 + 6) 2 (by omega), hAux, hValue, hNumber, hType, hClass, hSize, hCount, hLines,
    u16_leBytes (hW.relocCount_le i hLt), leNat_leBytes 4 (max _ _), leNat_leBytes 2 (i + 1)]
  rw [show leNat (leBytes 1 1) = 1 from rfl, if_neg (by omega),
    show decide (1 > 0) = true from rfl, if_pos rfl, if_pos rfl, if_pos rfl, if_pos rfl,
    coffReaderParseSymbolsFrom, show emitter.symbols.length + i * 2 + 1 + 1 =
    emitter.symbols.length + (i + 1) * 2 by omega]
  cases coffReaderParseSymbolsFrom (some (stringTableBytes emitter)) bytes
    (symbolTableStart emitter) remaining (emitter.symbols.length + (i + 1) * 2) 0
    (emitter.symbols.length + i * 2) with
  | error message => rfl
  | ok rest => rfl

theorem Written.read_symbolsFrom (tail p : Nat) {later : List CoffSymbol}
    (hLater : coffReaderParseSymbolsFrom (some (stringTableBytes emitter)) bytes (symbolTableStart
      emitter) tail emitter.symbols.length 0 p = .ok later) :
    ∀ (rest : List BinarySymbol) (j : Nat), emitter.symbols.drop j = rest →
      j ≤ emitter.symbols.length →
      coffReaderParseSymbolsFrom (some (stringTableBytes emitter)) bytes (symbolTableStart emitter)
        (rest.length + tail) j 0 p =
        .ok ((rest.zipIdx j).map (fun row => expectedSymbol emitter row.1 row.2) ++ later) := by
  intro rest
  induction rest with
  | nil =>
    intro j hDrop hj
    have hEnd : j = emitter.symbols.length := by
      have := drop_eq_nil_iff.mp hDrop
      omega
    rw [hEnd, length_nil, Nat.zero_add, hLater]
    rfl
  | cons symbol rest ih =>
    intro j hDrop _
    obtain ⟨hGet, hNext⟩ := drop_eq_cons hDrop
    have hLt := (List.getElem_of_getElem? hGet).1
    rw [length_cons, Nat.add_right_comm, hW.read_symbol hWf hFits hGet, ih (j + 1) hNext hLt]
    rfl

theorem Written.read_sectionSymbolsFrom :
    ∀ (rest : List BinarySection) (i p : Nat), emitter.sections.drop i = rest →
      coffReaderParseSymbolsFrom (some (stringTableBytes emitter)) bytes (symbolTableStart emitter)
        (rest.length * 2) (emitter.symbols.length + i * 2) 0 p =
        .ok ((rest.zipIdx i).flatMap fun row => expectedSectionRecords emitter row.1 row.2) := by
  intro rest
  induction rest with
  | nil =>
    intro i p _
    rfl
  | cons section_ rest ih =>
    intro i p hDrop
    obtain ⟨hGet, hNext⟩ := drop_eq_cons hDrop
    rw [length_cons, Nat.add_mul, Nat.one_mul, hW.read_sectionSymbol hWf hFits hGet,
      ih (i + 1) _ hNext]
    rfl

theorem Written.read_symbols : coffReaderParseSymbols (symbolTableStart emitter)
      (emitter.symbols.length + emitter.sections.length * 2) (some (stringTableBytes emitter))
      bytes = .ok (expectedObject emitter).symbols := by
  have hSections := hW.read_sectionSymbolsFrom hWf hFits emitter.sections 0 0 drop_zero
  have hAll := hW.read_symbolsFrom hWf hFits (emitter.sections.length * 2) 0 hSections
    emitter.symbols 0 drop_zero (Nat.zero_le _)
  unfold coffReaderParseSymbols
  by_cases hZero : emitter.symbols.length + emitter.sections.length * 2 = 0
  · rw [if_pos hZero, expectedObject, length_eq_zero_iff.mp (by omega : emitter.symbols.length = 0),
      length_eq_zero_iff.mp (by omega : emitter.sections.length = 0)]
    rfl
  · obtain ⟨pre, hBytes, hPre⟩ := hW.bytes_split hFits
    have hRange : coffReaderRangeOk bytes.length (symbolTableStart emitter)
        ((emitter.symbols.length + emitter.sections.length * 2) * COFF_SYMBOL_SIZE) = true := by
      rw [coffReaderRangeOk, COFF_SYMBOL_SIZE, hBytes, length_append, hPre,
        if_neg (by omega), if_neg (by omega)]
    rw [if_neg hZero, hRange, if_neg (by decide), hAll]
    rfl

end

end Read

/-- **Reading a written file.** -/
theorem coffObjectRead_write (hWf : WellFormed emitter)
    (hFits : LayoutFits emitter) (hWrite : binaryEmitterWriteCoffObjectFile emitter = .ok bytes)
    (filename : String) :
    coffObjectRead filename bytes = .ok (expectedObject emitter) := by
  obtain ⟨headers, relocs, symbols, hW⟩ := written_of_write hWrite
  obtain ⟨hMachine, hSections, hPointer, hSymbols⟩ := hW.read_header hFits
  obtain ⟨pre, hBytes, hPre⟩ := hW.bytes_split hFits
  have hLen : 20 ≤ bytes.length := by
    rw [hBytes, length_append, hPre, symbolTableStart]
    omega
  unfold coffObjectRead
  rw [COFF_FILE_HEADER_SIZE, if_neg (by omega), hMachine, if_neg (fun h => h rfl), hSections,
    hPointer, hSymbols, hW.read_stringTable hFits]
  show (do
    let sections ← coffReaderParseSections emitter.sections.length
      (some (stringTableBytes emitter)) bytes
    let symbols ← coffReaderParseSymbols (symbolTableStart emitter)
      (emitter.symbols.length + emitter.sections.length * 2) (some (stringTableBytes emitter)) bytes
    return { sections, symbols : CoffObject }) = _
  rw [hW.read_sections hWf hFits, hW.read_symbols hWf hFits]
  rfl

/-! ## The round trip -/

def sectionImage (raw : List UInt8) (size : Nat) : List UInt8 :=
  raw ++ List.replicate (size - raw.length) 0

def sectionSizes (object : CoffObject) : List Nat :=
  (object.symbols.filter CoffSymbol.hasAuxiliaryRecord).map CoffSymbol.auxSectionLength

def ownSymbols (object : CoffObject) : List CoffSymbol :=
  object.symbols.filter fun symbol => !symbol.isAuxiliary && !symbol.hasAuxiliaryRecord

def BinaryRelocationKind.linkerKind : BinaryRelocationKind → RelocationKind
  | .rel32 => .rel32
  | .addr64 => .addr64
  | .addr32nb => .addr32nb
  | .sectionRel32 => .secrel

def fieldAddend (kind : RelocationKind) (raw : List UInt8) (offset : Nat) : Option Int :=
  if offset + kind.width ≤ raw.length then some (relocationAddend kind raw offset) else none

/-- A section of the emitter and the section read for it. -/
structure SameSection (section_ : BinarySection) (read : CoffSection) (size : Nat) : Prop where
  name : read.name = section_.name
  size_eq : size = section_.virtualSize
  raw : section_.kind ≠ .bss → read.rawData = section_.data
  image : sectionImage read.rawData size = sectionImage section_.data section_.virtualSize

structure SameSymbol (symbol : BinarySymbol) (read : CoffSymbol) : Prop where
  name : read.name = some symbol.name
  value : read.value = symbol.value
  sectionNumber : read.sectionNumber = writtenSectionNumber symbol.sectionIndex
  storageClass : read.storageClass = storageClassOf symbol.binding

structure SameRelocation (object : CoffObject) (raw : List UInt8) (relocation : BinaryRelocation)
    (read : CoffRelocation) : Prop where
  offset : read.virtualAddress = relocation.offset
  target : (object.symbols[read.symbolTableIndex]?).bind CoffSymbol.name =
    some relocation.symbolName
  kind : relocationKindOf read.type = some relocation.kind.linkerKind
  addend : fieldAddend relocation.kind.linkerKind raw read.virtualAddress = some relocation.addend

structure RoundTrips (emitter : BinaryEmitter) (object : CoffObject) : Prop where
  sections_length : object.sections.length = emitter.sections.length
  sizes_length : (sectionSizes object).length = emitter.sections.length
  sections : ∀ (i : Nat) section_ read size, emitter.sections[i]? = some section_ →
    object.sections[i]? = some read → (sectionSizes object)[i]? = some size →
    SameSection section_ read size
  symbols_length : (ownSymbols object).length = emitter.symbols.length
  symbols : ∀ (j : Nat) symbol read, emitter.symbols[j]? = some symbol →
    (ownSymbols object)[j]? = some read → SameSymbol symbol read
  relocations_length : ∀ (i : Nat) read, object.sections[i]? = some read →
    read.relocations.length = (emitter.relocationsOf i).length
  relocations : ∀ (i k : Nat) section_ relocation read, object.sections[i]? = some section_ →
    (emitter.relocationsOf i)[k]? = some relocation → section_.relocations[k]? = some read →
    SameRelocation object section_.rawData relocation read

def AddendInPlace (emitter : BinaryEmitter) (relocation : BinaryRelocation) : Prop :=
  ∃ section_, emitter.sections[relocation.sectionIndex]? = some section_ ∧
    fieldAddend relocation.kind.linkerKind section_.fileBytes relocation.offset =
      some relocation.addend

/-- No field of the file loses anything. -/
structure FieldsFit (emitter : BinaryEmitter) : Prop where
  value : ∀ symbol ∈ emitter.symbols, symbol.value < 2 ^ 32
  -- section numbers are read back as `int16_t`
  sectionIndex : ∀ symbol ∈ emitter.symbols, ∀ i, symbol.sectionIndex = some i → i < 0x7FFF
  virtualSize : ∀ section_ ∈ emitter.sections, section_.virtualSize < 2 ^ 32
  bss : ∀ section_ ∈ emitter.sections, section_.kind = .bss → ∀ b ∈ section_.data, b = 0
  addend : ∀ relocation ∈ emitter.relocations, AddendInPlace emitter relocation

theorem ownSymbols_expected (emitter : BinaryEmitter) : ownSymbols (expectedObject emitter) =
      emitter.symbols.zipIdx.map fun row => expectedSymbol emitter row.1 row.2 := by
  rw [ownSymbols, expectedObject, List.filter_append, List.filter_flatMap, List.filter_map]
  have hAll : emitter.symbols.zipIdx.filter ((fun symbol : CoffSymbol =>
      !symbol.isAuxiliary && !symbol.hasAuxiliaryRecord) ∘
        fun row => expectedSymbol emitter row.1 row.2) = emitter.symbols.zipIdx :=
    List.filter_eq_self.mpr fun row _ => rfl
  have hNone : (emitter.sections.zipIdx.flatMap fun row =>
      (expectedSectionRecords emitter row.1 row.2).filter fun symbol =>
        !symbol.isAuxiliary && !symbol.hasAuxiliaryRecord) = [] :=
    List.flatMap_eq_nil_iff.mpr fun row _ => rfl
  rw [hAll, hNone, List.append_nil]

theorem sectionSizes_expected (emitter : BinaryEmitter) : sectionSizes (expectedObject emitter) =
      emitter.sections.zipIdx.map fun row => max row.1.virtualSize row.1.data.length % 2 ^ 32 := by
  rw [sectionSizes, expectedObject, List.filter_append, List.filter_flatMap, List.filter_map]
  have hNone : emitter.symbols.zipIdx.filter (CoffSymbol.hasAuxiliaryRecord ∘
      fun row => expectedSymbol emitter row.1 row.2) = [] :=
    List.filter_eq_nil_iff.mpr fun row _ h => Bool.false_ne_true h
  have hOne : (emitter.sections.zipIdx.flatMap fun row =>
      (expectedSectionRecords emitter row.1 row.2).filter CoffSymbol.hasAuxiliaryRecord) =
      emitter.sections.zipIdx.map fun row => expectedSectionSymbol emitter row.1 row.2 := by
    rw [← List.flatMap_pure_eq_map]
    rfl
  rw [hNone, hOne, List.map_nil, List.nil_append, List.map_map]
  rfl

theorem getElem?_zipIdx_map {α β : Type} {l : List α} (f : α × Nat → β) {x : α}
    (hi : l[i]? = some x) : (l.zipIdx.map f)[i]? = some (f (x, i)) := by
  rw [getElem?_map, getElem?_zipIdx, hi, Nat.zero_add]
  rfl

theorem expectedRelocation_target {symbolIndex : Nat}
    (hFind : binaryEmitterFindSymbolIndex emitter relocation.symbolName = some symbolIndex) :
    ((expectedObject emitter).symbols[symbolIndex]?).bind CoffSymbol.name =
      some relocation.symbolName := by
  unfold binaryEmitterFindSymbolIndex at hFind
  split at hFind
  · cases hFind
  · rename_i i hIdx
    split at hFind
    · cases hFind
      obtain ⟨hLt, hName, -⟩ := findIdx?_eq_some_iff_getElem.mp hIdx
      have hGet := getElem?_zipIdx_map (fun row => expectedSymbol emitter row.1 row.2)
        (getElem?_eq_getElem hLt)
      rw [expectedObject, getElem?_append_left (by
        rw [length_map, length_zipIdx]; exact hLt), hGet]
      exact congrArg some (eq_of_beq hName)
    · cases hFind

theorem relocationKindOf_map (kind : BinaryRelocationKind) :
    relocationKindOf (binaryEmitterMapRelocationKind kind) = some kind.linkerKind := by
  cases kind <;> rfl

theorem toInt16_sectionNumber (hn : n < 2 ^ 16) : toInt16 (n % 2 ^ 16) = n ↔ n < 2 ^ 15 := by
  unfold toInt16
  rw [Int.bmod_def]
  split <;> omega

theorem length_fieldAddend {kind : RelocationKind} {raw : List UInt8} {offset : Nat} {addend : Int}
    (h : fieldAddend kind raw offset = some addend) : offset + kind.width ≤ raw.length := by
  unfold fieldAddend at h
  split at h
  · assumption
  · cases h

theorem sectionImage_bss {data : List UInt8} {size : Nat} (hSize : data.length ≤ size) :
    sectionImage [] size = sectionImage data size ↔ ∀ b ∈ data, b = 0 := by
  unfold sectionImage
  rw [nil_append, length_nil, Nat.sub_zero]
  constructor
  · intro hEq b hb
    have hMem : b ∈ replicate size (0 : UInt8) := by
      rw [hEq]
      exact mem_append_left _ hb
    exact eq_of_mem_replicate hMem
  · intro hZero
    rw [eq_replicate_of_mem hZero, ← replicate_add, length_replicate]
    congr 1
    omega

section RoundTrip

theorem tables_of_write (hWrite : binaryEmitterWriteCoffObjectFile emitter = .ok bytes) :
    emitter.sections.length ≤ 0xFFFF ∧ (∀ relocation ∈ emitter.relocations,
        relocation.sectionIndex < emitter.sections.length ∧ ∃ symbolIndex,
            binaryEmitterFindSymbolIndex emitter relocation.symbolName = some symbolIndex) ∧
      ∀ symbol ∈ emitter.symbols, ∀ i, symbol.sectionIndex = some i →
        i < emitter.sections.length := by
  obtain ⟨headers, relocs, symbols, hW⟩ := written_of_write hWrite
  refine ⟨hW.sections_le, ?_, ?_⟩
  · intro relocation hMem
    have hi := hW.relocation_section relocation hMem
    have hOf : relocation ∈ emitter.relocationsOf relocation.sectionIndex :=
      mem_filter.mpr ⟨hMem, beq_self_eq_true _⟩
    obtain ⟨k, hk⟩ := mem_iff_getElem?.mp hOf
    obtain ⟨record, hRun, -⟩ := hW.slice_reloc hi hk
    obtain ⟨symbolIndex, hFind, -⟩ := writeRelocation_fields hRun
    exact ⟨hi, symbolIndex, hFind⟩
  · intro symbol hMem i hSome
    obtain ⟨j, hj⟩ := mem_iff_getElem?.mp hMem
    obtain ⟨record, -, hRun⟩ := hW.symbol j symbol hj
    rw [binaryEmitterWriteSymbol, hSome] at hRun
    by_contra hBig
    dsimp only at hRun
    rw [if_pos (by omega)] at hRun
    cases hRun

theorem sameSection_expected (hWf : WellFormed emitter) (hMem : section_ ∈ emitter.sections)
    (i : Nat) :
    SameSection section_ (expectedSection emitter section_ i)
        (max section_.virtualSize section_.data.length % 2 ^ 32) ↔
      section_.virtualSize < 2 ^ 32 ∧ (section_.kind = .bss → ∀ b ∈ section_.data, b = 0) := by
  have hSize := hWf.size_le section_ hMem
  rw [Nat.max_eq_left hSize]
  constructor
  · intro hSame
    have hLt : section_.virtualSize < 2 ^ 32 := by
      have := hSame.size_eq
      omega
    refine ⟨hLt, ?_⟩
    intro hBss
    have hRaw : (expectedSection emitter section_ i).rawData = [] := if_pos hBss
    have hImage := hSame.image
    rw [hRaw, Nat.mod_eq_of_lt hLt] at hImage
    exact (sectionImage_bss hSize).mp hImage
  · rintro ⟨hLt, hZero⟩
    rw [Nat.mod_eq_of_lt hLt]
    refine ⟨rfl, rfl, fun hKind => if_neg hKind, ?_⟩
    by_cases hBss : section_.kind = .bss
    · have hRaw : (expectedSection emitter section_ i).rawData = [] := if_pos hBss
      rw [hRaw]
      exact (sectionImage_bss hSize).mpr (hZero hBss)
    · have hRaw : (expectedSection emitter section_ i).rawData = section_.data := if_neg hBss
      rw [hRaw]

theorem sameSymbol_expected (j : Nat) (hSection : ∀ i, symbol.sectionIndex = some i → i < 0xFFFF) :
    SameSymbol symbol (expectedSymbol emitter symbol j) ↔
      symbol.value < 2 ^ 32 ∧ ∀ i, symbol.sectionIndex = some i → i < 0x7FFF := by
  have hNumber : writtenSectionNumber symbol.sectionIndex < 2 ^ 16 := by
    cases hIndex : symbol.sectionIndex with
    | none => exact Nat.two_pow_pos 16
    | some i =>
      have := hSection i hIndex
      show i + 1 < 2 ^ 16
      omega
  have hExact := toInt16_sectionNumber hNumber
  have hSmall : writtenSectionNumber symbol.sectionIndex < 2 ^ 15 ↔
      ∀ i, symbol.sectionIndex = some i → i < 0x7FFF := by
    cases symbol.sectionIndex with
    | none => simp [writtenSectionNumber]
    | some i =>
      simp only [writtenSectionNumber, some.injEq, forall_eq']
      omega
  constructor
  · intro hSame
    have hValue := hSame.value
    have hRead := hSame.sectionNumber
    dsimp only [expectedSymbol] at hValue hRead
    exact ⟨by omega, hSmall.mp (hExact.mp hRead)⟩
  · rintro ⟨hValue, hIndex⟩
    refine ⟨rfl, Nat.mod_eq_of_lt hValue, ?_, rfl⟩
    dsimp only [expectedSymbol]
    exact hExact.mpr (hSmall.mpr hIndex)

theorem sameRelocation_expected (hFits : LayoutFits emitter)
    (hSection : emitter.sections[relocation.sectionIndex]? = some section_) {symbolIndex : Nat}
    (hFind : binaryEmitterFindSymbolIndex emitter relocation.symbolName = some symbolIndex) :
    SameRelocation (expectedObject emitter) section_.fileBytes relocation
        (expectedRelocation emitter relocation) ↔ AddendInPlace emitter relocation := by
  have hTarget : ((expectedObject emitter).symbols[(expectedRelocation emitter
      relocation).symbolTableIndex]?).bind CoffSymbol.name = some relocation.symbolName := by
    show ((expectedObject emitter).symbols[(binaryEmitterFindSymbolIndex emitter
      relocation.symbolName).getD 0]?).bind _ = _
    rw [hFind]
    exact expectedRelocation_target hFind
  constructor
  · intro hSame
    have hAddend := hSame.addend
    rw [hSame.offset] at hAddend
    exact ⟨section_, hSection, hAddend⟩
  · rintro ⟨section', hSection', hAddend⟩
    obtain rfl : section_ = section' := some.inj (hSection.symm.trans hSection')
    -- the field lies inside the raw data, so its offset is below `2 ^ 32`
    have hLt : relocation.offset < 2 ^ 32 := by
      have hField := length_fieldAddend hAddend
      have hRaw : (rawLengths emitter)[relocation.sectionIndex]? = some section_.fileBytes.length := by
        rw [rawLengths, getElem?_map, hSection]
        rfl
      have hSum := sum_take_add_le hRaw
      have hStart := hFits.start
      unfold symbolTableStart at hStart
      omega
    have hOffset : (expectedRelocation emitter relocation).virtualAddress = relocation.offset :=
      Nat.mod_eq_of_lt hLt
    refine ⟨hOffset, hTarget, relocationKindOf_map _, ?_⟩
    rw [hOffset]
    exact hAddend

theorem roundTrips_expected_iff (hWf : WellFormed emitter) (hFits : LayoutFits emitter)
    (hWrite : binaryEmitterWriteCoffObjectFile emitter = .ok bytes) :
    RoundTrips emitter (expectedObject emitter) ↔ FieldsFit emitter := by
  obtain ⟨hSections, hRelocations, hSymbols⟩ := tables_of_write hWrite
  have hSectionAt : ∀ {i : Nat} {section_}, emitter.sections[i]? = some section_ →
      (expectedObject emitter).sections[i]? = some (expectedSection emitter section_ i) :=
    fun hi => getElem?_zipIdx_map (fun row => expectedSection emitter row.1 row.2) hi
  have hSizeAt : ∀ {i : Nat} {section_}, emitter.sections[i]? = some section_ →
      (sectionSizes (expectedObject emitter))[i]? =
        some (max section_.virtualSize section_.data.length % 2 ^ 32) := by
    intro i section_ hi
    rw [sectionSizes_expected]
    exact getElem?_zipIdx_map _ hi
  have hSymbolAt : ∀ {j : Nat} {symbol}, emitter.symbols[j]? = some symbol →
      (ownSymbols (expectedObject emitter))[j]? = some (expectedSymbol emitter symbol j) := by
    intro j symbol hj
    rw [ownSymbols_expected]
    exact getElem?_zipIdx_map (fun row => expectedSymbol emitter row.1 row.2) hj
  have hIndexLt : ∀ symbol ∈ emitter.symbols, ∀ i, symbol.sectionIndex = some i → i < 0xFFFF := by
    intro symbol hMem i hi
    have := hSymbols symbol hMem i hi
    omega
  constructor
  · intro hTrip
    have hSection : ∀ section_ ∈ emitter.sections, section_.virtualSize < 2 ^ 32 ∧
        (section_.kind = .bss → ∀ b ∈ section_.data, b = 0) := by
      intro section_ hMem
      obtain ⟨i, hi⟩ := mem_iff_getElem?.mp hMem
      exact (sameSection_expected hWf hMem i).mp
        (hTrip.sections i section_ _ _ hi (hSectionAt hi) (hSizeAt hi))
    have hSymbol : ∀ symbol ∈ emitter.symbols, symbol.value < 2 ^ 32 ∧
        ∀ i, symbol.sectionIndex = some i → i < 0x7FFF := by
      intro symbol hMem
      obtain ⟨j, hj⟩ := mem_iff_getElem?.mp hMem
      exact (sameSymbol_expected j (hIndexLt symbol hMem)).mp
        (hTrip.symbols j symbol _ hj (hSymbolAt hj))
    refine ⟨fun s hs => (hSymbol s hs).1, fun s hs => (hSymbol s hs).2,
      fun s hs => (hSection s hs).1, fun s hs => (hSection s hs).2, ?_⟩
    intro relocation hMem
    obtain ⟨hi, symbolIndex, hFind⟩ := hRelocations relocation hMem
    have hGet := getElem?_eq_getElem hi
    have hOf : relocation ∈ emitter.relocationsOf relocation.sectionIndex :=
      mem_filter.mpr ⟨hMem, beq_self_eq_true _⟩
    obtain ⟨k, hk⟩ := mem_iff_getElem?.mp hOf
    have hRead : (expectedSection emitter emitter.sections[relocation.sectionIndex]
        relocation.sectionIndex).relocations[k]? = some (expectedRelocation emitter relocation) := by
      rw [expectedSection, getElem?_map, hk]
      rfl
    exact (sameRelocation_expected hFits hGet hFind).mp
      (hTrip.relocations relocation.sectionIndex k _ relocation _ (hSectionAt hGet) hk hRead)
  · intro hField
    refine
      { sections_length := by rw [expectedObject, length_map, length_zipIdx]
        sizes_length := by rw [sectionSizes_expected, length_map, length_zipIdx]
        sections := ?_
        symbols_length := by rw [ownSymbols_expected, length_map, length_zipIdx]
        symbols := ?_
        relocations_length := ?_
        relocations := ?_ }
    · intro i section_ read size hi hRead hSize
      have hMem := mem_of_getElem? hi
      obtain rfl := some.inj ((hSectionAt hi).symm.trans hRead)
      obtain rfl := some.inj ((hSizeAt hi).symm.trans hSize)
      exact (sameSection_expected hWf hMem i).mpr
        ⟨hField.virtualSize section_ hMem, hField.bss section_ hMem⟩
    · intro j symbol read hj hRead
      have hMem := mem_of_getElem? hj
      obtain rfl := some.inj ((hSymbolAt hj).symm.trans hRead)
      exact (sameSymbol_expected j (hIndexLt symbol hMem)).mpr
        ⟨hField.value symbol hMem, hField.sectionIndex symbol hMem⟩
    · intro i read hRead
      have hi : i < emitter.sections.length := by
        have hLt := (List.getElem_of_getElem? hRead).1
        rwa [expectedObject, length_map, length_zipIdx] at hLt
      obtain rfl := some.inj ((hSectionAt (getElem?_eq_getElem hi)).symm.trans hRead)
      exact length_map _
    · intro i k section_ relocation read hSection hk hRead
      have hi : i < emitter.sections.length := by
        have hLt := (List.getElem_of_getElem? hSection).1
        rwa [expectedObject, length_map, length_zipIdx] at hLt
      have hGet := getElem?_eq_getElem hi
      obtain rfl := some.inj ((hSectionAt hGet).symm.trans hSection)
      -- a relocation of the row belongs to the section of the row
      obtain ⟨hMem, hRow⟩ := mem_filter.mp (mem_of_getElem? hk)
      obtain rfl : relocation.sectionIndex = i := eq_of_beq hRow
      obtain ⟨-, symbolIndex, hFind⟩ := hRelocations relocation hMem
      have hExpected : (expectedSection emitter emitter.sections[relocation.sectionIndex]
          relocation.sectionIndex).relocations[k]? =
          some (expectedRelocation emitter relocation) := by
        rw [expectedSection, getElem?_map, hk]
        rfl
      obtain rfl := some.inj (hExpected.symm.trans hRead)
      exact (sameRelocation_expected hFits hGet hFind).mpr (hField.addend relocation hMem)

/-- **The COFF round trip.** For every object built through the emitter's operations that
the writer accepts and whose layout fits: the reader accepts the file, and it returns the
emitted object if and only if no field loses anything and every relocation's addend
already stands in the bytes it patches. -/
theorem coffRoundTrip_iff (hBuilt : Built emitter)
    (hWrite : binaryEmitterWriteCoffObjectFile emitter = .ok bytes) (hFits : LayoutFits emitter)
    (filename : String) :
    ∃ object, coffObjectRead filename bytes = .ok object ∧
      (RoundTrips emitter object ↔ FieldsFit emitter) :=
  ⟨expectedObject emitter, coffObjectRead_write hBuilt.wellFormed hFits hWrite filename,
    roundTrips_expected_iff hBuilt.wellFormed hFits hWrite⟩

end RoundTrip

/-! ## A pointer in the data section -/

/-- A `.data` section with one eight-byte pointer to `x`, emitted with the given addend. -/
def pointerEmitter (addend : Int) : BinaryEmitter :=
  { sections := [{ name := cLit ".data", kind := .data, characteristics := 0, alignment := 8
                   data := List.replicate 8 0, virtualSize := 8 }]
    symbols := [{ name := cLit "x", binding := .external, sectionIndex := none, value := 0
                  size := 0 }]
    relocations := [{ sectionIndex := 0, offset := 0, kind := .addr64, symbolName := cLit "x"
                      addend }] }

variable (addend : Int)

theorem built_pointerEmitter : Built (pointerEmitter addend) := by
  have hSection := Built.section_ (cLit ".data") .data 0 8 (by decide) Built.create
  have hBytes := Built.append 0 (replicate 8 0) hSection rfl
  have hSymbol := Built.symbol (cLit "x") .external none 0 0 (by decide) hBytes rfl
  exact Built.relocation 0 0 .addr64 (cLit "x") addend hSymbol rfl

theorem layoutFits_pointerEmitter : LayoutFits (pointerEmitter addend) := by
  have hStart : symbolTableStart (pointerEmitter addend) = 78 := rfl
  have hStrings : stringTableLength (pointerEmitter addend) = 4 := rfl
  refine ⟨by omega, by omega, ?_⟩
  intro section_ hMem _ hLooks
  obtain rfl := mem_singleton.mp hMem
  exact absurd hLooks.1 (by decide)

theorem write_pointerEmitter :
    ∃ bytes, binaryEmitterWriteCoffObjectFile (pointerEmitter addend) = .ok bytes := by
  have hSame : binaryEmitterWriteCoffObjectFile (pointerEmitter addend) =
      binaryEmitterWriteCoffObjectFile (pointerEmitter 0) := rfl
  have hOk : (binaryEmitterWriteCoffObjectFile (pointerEmitter 0)).toBool = true := by
    decide
  rw [hSame]
  cases hWrite : binaryEmitterWriteCoffObjectFile (pointerEmitter 0) with
  | error message =>
    rw [hWrite] at hOk
    cases hOk
  | ok bytes => exact ⟨bytes, rfl⟩

theorem fieldsFit_pointerEmitter_zero : FieldsFit (pointerEmitter 0) := by
  refine ⟨by decide, by decide, by decide, by decide, ?_⟩
  intro relocation hMem
  obtain rfl := mem_singleton.mp hMem
  exact ⟨_, rfl, by decide +kernel⟩

theorem coffRoundTrip_pointer :
    ∃ bytes object, binaryEmitterWriteCoffObjectFile (pointerEmitter 0) = .ok bytes ∧
      coffObjectRead "a.obj" bytes = .ok object ∧ RoundTrips (pointerEmitter 0) object := by
  obtain ⟨bytes, hWrite⟩ := write_pointerEmitter 0
  obtain ⟨object, hRead, hIff⟩ := coffRoundTrip_iff (built_pointerEmitter 0) hWrite
    (layoutFits_pointerEmitter 0) "a.obj"
  exact ⟨bytes, object, hWrite, hRead, hIff.mpr fieldsFit_pointerEmitter_zero⟩

/-- With addend eight it does not: the writer never writes the addend, so the field still
holds zero. -/
theorem not_coffRoundTrip_addend :
    ¬ ∀ (emitter : BinaryEmitter) (bytes : List UInt8), Built emitter →
      binaryEmitterWriteCoffObjectFile emitter = .ok bytes →
      ∃ object, coffObjectRead "a.obj" bytes = .ok object ∧ RoundTrips emitter object := by
  intro hClaim
  obtain ⟨bytes, hWrite⟩ := write_pointerEmitter 8
  obtain ⟨object, hRead, hTrip⟩ := hClaim _ bytes (built_pointerEmitter 8) hWrite
  have hWf := (built_pointerEmitter 8).wellFormed
  have hFits := layoutFits_pointerEmitter 8
  obtain rfl : expectedObject (pointerEmitter 8) = object :=
    Except.ok.inj ((coffObjectRead_write hWf hFits hWrite "a.obj").symm.trans hRead)
  have hField := (roundTrips_expected_iff hWf hFits hWrite).mp hTrip
  obtain ⟨section_, hSection, hAddend⟩ := hField.addend _ mem_cons_self
  cases hSection
  exact absurd hAddend (by decide +kernel)

end Mettle.Codegen
