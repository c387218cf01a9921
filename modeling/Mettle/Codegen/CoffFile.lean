import Mathlib.Algebra.BigOperators.Ring.List
import Mettle.Codegen.CoffLayout

/-!
# Mettle — the parts of a written COFF file

`Written` describes a file by the records of its tables: what
`binary_emitter_write_coff_object_file` leaves behind when it succeeds. Every range the
reader looks at is then a range of one record, and the fields of a record read back what
was encoded into them.
-/

namespace Mettle.Codegen

open Mettle.Lib Mettle.Linker List Option

/-! ## The written file -/

def coffFileHeader (emitter : BinaryEmitter) : List UInt8 :=
  leBytes 2 COFF_MACHINE_AMD64 ++ (leBytes 2 emitter.sections.length ++ (leBytes 4 0 ++
    (leBytes 4 (coffLayout emitter).pointerToSymbolTable ++
    (leBytes 4 (coffLayout emitter).totalSymbolRecords ++ (leBytes 2 0 ++ leBytes 2 0)))))

def sectionSymbolParts (emitter : BinaryEmitter) : List (List UInt8) :=
  (emitter.sections.zip (List.range emitter.sections.length)).map fun row =>
    binaryEmitterWriteSectionSymbol row.1 row.2
      ((coffLayout emitter).sectionNameOffsets.getD row.2 0)
      ((coffLayout emitter).relocCounts.getD row.2 0)

def orderedRelocations (emitter : BinaryEmitter) : List BinaryRelocation :=
  (List.range emitter.sections.length).flatMap emitter.relocationsOf

/-- `bytes` is the file of `emitter`, with the given section headers, relocation records
and symbol records. -/
structure Written (emitter : BinaryEmitter) (bytes : List UInt8)
    (headers relocs symbols : List (List UInt8)) : Prop where
  sections_le : emitter.sections.length ≤ 0xFFFF
  records_le : emitter.symbols.length + emitter.sections.length * 2 ≤ 0xFFFFFFFF
  relocation_section : ∀ relocation ∈ emitter.relocations,
    relocation.sectionIndex < emitter.sections.length
  relocCount_le : ∀ i < emitter.sections.length, (emitter.relocationsOf i).length ≤ 0xFFFF
  headers_length : headers.length = emitter.sections.length
  header : ∀ (i : Nat) section_, emitter.sections[i]? = some section_ →
    ∃ header, headers[i]? = some header ∧
      binaryEmitterWriteSectionHeader section_ ((coffLayout emitter).sectionNameOffsets.getD i 0)
        ((coffLayout emitter).rawOffsets.getD i 0) ((coffLayout emitter).relocOffsets.getD i 0)
        ((emitter.relocationsOf i).length) = .ok header
  relocs_length : relocs.length = (orderedRelocations emitter).length
  reloc : ∀ (i : Nat) relocation, (orderedRelocations emitter)[i]? = some relocation →
    ∃ record, relocs[i]? = some record ∧
      binaryEmitterWriteRelocation emitter relocation = .ok record
  symbols_length : symbols.length = emitter.symbols.length
  symbol : ∀ (i : Nat) symbol, emitter.symbols[i]? = some symbol →
    ∃ record, symbols[i]? = some record ∧ binaryEmitterWriteSymbol emitter.sections symbol
        ((coffLayout emitter).symbolNameOffsets.getD i 0) = .ok record
  bytes_eq : bytes = coffFileHeader emitter ++ (headers.flatten ++
    (emitter.sections.flatMap BinarySection.fileBytes ++ (relocs.flatten ++ (symbols.flatten ++
    ((sectionSymbolParts emitter).flatten ++ (leBytes 4 (coffLayout emitter).stringTableSize ++
        (stringTableNames (emitter.sections.map BinarySection.name)
            (coffLayout emitter).sectionNameOffsets ++
          stringTableNames (emitter.symbols.map BinarySymbol.name)
            (coffLayout emitter).symbolNameOffsets)))))))

variable {emitter : BinaryEmitter}

variable {i : Nat}

theorem coffLayout_relocCount (hi : i < emitter.sections.length) :
    (coffLayout emitter).relocCounts.getD i 0 = (emitter.relocationsOf i).length := by
  have hGet : (coffLayout emitter).relocCounts[i]? = some (emitter.relocationsOf i).length := by
    show ((range _).map _)[i]? = _
    rw [getElem?_map, getElem?_range hi]
    rfl
  rw [getD_eq_getElem?_getD, hGet]
  rfl

theorem written_of_write {bytes : List UInt8}
    (h : binaryEmitterWriteCoffObjectFile emitter = .ok bytes) :
    ∃ headers relocs symbols, Written emitter bytes headers relocs symbols := by
  unfold binaryEmitterWriteCoffObjectFile at h
  dsimp only at h
  split at h
  · cases h
  split at h
  · cases h
  split at h
  · cases h
  split at h
  · cases h
  rename_i hTargets
  split at h
  · cases h
  rename_i hCounts
  -- the three loops that can fail
  cases hHeaders : (emitter.sections.zip (range emitter.sections.length)).mapM fun row =>
      binaryEmitterWriteSectionHeader row.1 ((coffLayout emitter).sectionNameOffsets.getD row.2 0)
        ((coffLayout emitter).rawOffsets.getD row.2 0)
        ((coffLayout emitter).relocOffsets.getD row.2 0)
        ((coffLayout emitter).relocCounts.getD row.2 0) with
  | error message =>
    rw [hHeaders] at h
    cases h
  | ok headers =>
    rw [hHeaders] at h
    cases hRelocs : (orderedRelocations emitter).mapM (binaryEmitterWriteRelocation emitter) with
    | error message =>
      rw [show (range emitter.sections.length).flatMap emitter.relocationsOf =
        orderedRelocations emitter from rfl, hRelocs] at h
      cases h
    | ok relocs =>
      rw [show (range emitter.sections.length).flatMap emitter.relocationsOf =
        orderedRelocations emitter from rfl, hRelocs] at h
      cases hSymbols : (emitter.symbols.zip (coffLayout emitter).symbolNameOffsets).mapM fun row =>
          binaryEmitterWriteSymbol emitter.sections row.1 row.2 with
      | error message =>
        rw [hSymbols] at h
        cases h
      | ok symbols =>
        rw [hSymbols] at h
        obtain ⟨hLenHeaders, hGetHeaders⟩ := mapM_ok hHeaders
        obtain ⟨hLenRelocs, hGetRelocs⟩ := mapM_ok hRelocs
        obtain ⟨hLenSymbols, hGetSymbols⟩ := mapM_ok hSymbols
        have hOffsets := (@coffLayout_nameOffsets emitter).2.2.2
        have hCount : ∀ i < emitter.sections.length, (emitter.relocationsOf i).length ≤ 0xFFFF := by
          intro i hi
          by_contra hBig
          apply hCounts
          rw [List.any_eq_true]
          refine ⟨(emitter.relocationsOf i).length, ?_, by simpa using hBig⟩
          exact mem_map.mpr ⟨i, mem_range.mpr hi, rfl⟩
        refine ⟨headers, relocs, symbols, ?_⟩
        refine
          { sections_le := by omega
            records_le := by omega
            relocation_section := ?_
            relocCount_le := hCount
            headers_length := by
              rw [hLenHeaders, length_zip, length_range, Nat.min_self]
            header := ?_
            relocs_length := hLenRelocs
            reloc := hGetRelocs
            symbols_length := by rw [hLenSymbols, length_zip, hOffsets, Nat.min_self]
            symbol := ?_
            bytes_eq := ?_ }
        · intro relocation hMem
          by_contra hBig
          apply hTargets
          rw [List.any_eq_true]
          exact ⟨relocation, hMem, by simpa using hBig⟩
        · intro i section_ hi
          have hLt := (List.getElem_of_getElem? hi).1
          obtain ⟨header, hHeader, hRun⟩ := hGetHeaders i (section_, i) (by
            rw [getElem?_zip_eq_some]
            exact ⟨hi, getElem?_range hLt⟩)
          refine ⟨header, hHeader, ?_⟩
          rw [← coffLayout_relocCount hLt]
          exact hRun
        · intro i symbol hi
          have hLt := (List.getElem_of_getElem? hi).1
          obtain ⟨record, hRecord, hRun⟩ := hGetSymbols i
            (symbol, (coffLayout emitter).symbolNameOffsets.getD i 0) (by
            rw [getElem?_zip_eq_some]
            refine ⟨hi, ?_⟩
            rw [getD_eq_getElem _ _ (by omega)]
            exact getElem?_eq_getElem (by omega))
          exact ⟨record, hRecord, hRun⟩
        · exact (Except.ok.inj h).symm

/-! ## Records -/

theorem length_writeSymbolName (name : CString) (offset : Nat) :
    (binaryEmitterWriteSymbolName name offset).length = 8 := by
  unfold binaryEmitterWriteSymbolName
  split
  · rename_i hLen
    exact length_padField hLen
  · rw [length_append, length_leBytes, length_leBytes]

theorem length_symbolRecord (symbol : BinarySymbol) (a b c : Nat) :
    (symbolRecord symbol a b c).length = 18 := by
  simp [symbolRecord, length_writeSymbolName]

variable {record : List UInt8}

theorem length_writeSymbol {sections : List BinarySection} {symbol : BinarySymbol} {offset : Nat}
    (h : binaryEmitterWriteSymbol sections symbol offset = .ok record) : record.length = 18 := by
  unfold binaryEmitterWriteSymbol at h
  split at h
  · cases h
    exact length_symbolRecord _ _ _ _
  · split at h
    · cases h
    · cases h
      exact length_symbolRecord _ _ _ _

theorem length_writeSectionSymbol (section_ : BinarySection) (i offset count : Nat) :
    (binaryEmitterWriteSectionSymbol section_ i offset count).length = 36 := by
  simp [binaryEmitterWriteSectionSymbol, length_writeSymbolName]

variable {relocation : BinaryRelocation}

theorem length_writeRelocation (h : binaryEmitterWriteRelocation emitter relocation = .ok record) :
    record.length = 10 := by
  unfold binaryEmitterWriteRelocation at h
  split at h
  · cases h
  · cases h
    simp

theorem length_writeSectionName {name : CString} {offset : Nat} {field : List UInt8}
    (h : binaryEmitterWriteSectionName name offset = some field) : field.length = 8 := by
  unfold binaryEmitterWriteSectionName at h
  split at h
  · rename_i hLen
    cases h
    exact length_padField hLen
  · split at h
    · cases h
    · rename_i hLen
      cases h
      exact length_padField (by rw [length_cons]; omega)

variable {section_ : BinarySection}

theorem writeSectionHeader_fields {nameOffset rawOffset relocOffset relocCount : Nat}
    {header : List UInt8} (h : binaryEmitterWriteSectionHeader section_ nameOffset rawOffset
      relocOffset relocCount = .ok header) :
    header.length = 40 ∧
      binaryEmitterWriteSectionName section_.name nameOffset = some (slice header 0 8) ∧
      slice header 8 4 = leBytes 4 0 ∧
      slice header 16 4 = leBytes 4 section_.fileBytes.length ∧
      slice header 20 4 = leBytes 4 rawOffset ∧ slice header 24 4 = leBytes 4 relocOffset ∧
      slice header 32 2 = leBytes 2 relocCount ∧
      slice header 36 4 = leBytes 4 (if section_.characteristics = 0 then
        binaryEmitterDefaultSectionCharacteristics section_.kind else section_.characteristics) := by
  unfold binaryEmitterWriteSectionHeader at h
  cases hName : binaryEmitterWriteSectionName section_.name nameOffset with
  | none =>
    rw [hName] at h
    cases h
  | some field =>
    rw [hName] at h
    have hField := length_writeSectionName hName
    cases h
    refine ⟨?_, ?_, ?_, ?_, ?_, ?_, ?_, ?_⟩
    · simp [hField]
    · rw [slice_append_first hField.symm]
    all_goals
      simp (disch := simp [hField]) only [slice_append_skip, slice_append_first, slice_zero_self,
        length_leBytes, hField, Nat.reduceSub]

theorem symbolRecord_fields (symbol : BinarySymbol) (nameOffset sectionNumber type : Nat) :
    slice (symbolRecord symbol nameOffset sectionNumber type) 0 8 =
        binaryEmitterWriteSymbolName symbol.name nameOffset ∧
      slice (symbolRecord symbol nameOffset sectionNumber type) 8 4 = leBytes 4 symbol.value ∧
      slice (symbolRecord symbol nameOffset sectionNumber type) 12 2 = leBytes 2 sectionNumber ∧
      slice (symbolRecord symbol nameOffset sectionNumber type) 14 2 = leBytes 2 type ∧
      slice (symbolRecord symbol nameOffset sectionNumber type) 16 1 =
        leBytes 1 (storageClassOf symbol.binding) ∧
      slice (symbolRecord symbol nameOffset sectionNumber type) 17 1 = leBytes 1 0 := by
  have hField := length_writeSymbolName symbol.name nameOffset
  unfold symbolRecord
  refine ⟨slice_append_first hField.symm, ?_, ?_, ?_, ?_, ?_⟩
  all_goals
    simp (disch := simp [hField]) only [slice_append_skip, slice_append_first, slice_zero_self,
      length_leBytes, hField, Nat.reduceSub]

theorem sectionSymbol_fields (section_ : BinarySection) (i nameOffset count : Nat) :
    let record := binaryEmitterWriteSectionSymbol section_ i nameOffset count
    slice record 0 8 = binaryEmitterWriteSymbolName section_.name nameOffset ∧
      slice record 8 4 = leBytes 4 0 ∧ slice record 12 2 = leBytes 2 (i + 1) ∧
      slice record 14 2 = leBytes 2 0 ∧ slice record 16 1 = leBytes 1 COFF_STORAGE_CLASS_STATIC ∧
      slice record 17 1 = leBytes 1 1 ∧
      slice record 18 4 = leBytes 4 (max section_.virtualSize section_.data.length) ∧
      slice record 22 2 = leBytes 2 count ∧ slice record 24 2 = leBytes 2 0 := by
  have hField := length_writeSymbolName section_.name nameOffset
  unfold binaryEmitterWriteSectionSymbol
  refine ⟨slice_append_first hField.symm, ?_, ?_, ?_, ?_, ?_, ?_, ?_, ?_⟩
  all_goals
    simp (disch := simp [hField]) only [slice_append_skip, slice_append_first,
      length_leBytes, hField, Nat.reduceSub]

theorem writeRelocation_fields (h : binaryEmitterWriteRelocation emitter relocation = .ok record) :
    ∃ symbolIndex, binaryEmitterFindSymbolIndex emitter relocation.symbolName = some symbolIndex ∧
      slice record 0 4 = leBytes 4 relocation.offset ∧ slice record 4 4 = leBytes 4 symbolIndex ∧
      slice record 8 2 = leBytes 2 (binaryEmitterMapRelocationKind relocation.kind) := by
  unfold binaryEmitterWriteRelocation at h
  cases hFind : binaryEmitterFindSymbolIndex emitter relocation.symbolName with
  | none =>
    rw [hFind] at h
    cases h
  | some symbolIndex =>
    rw [hFind] at h
    cases h
    refine ⟨symbolIndex, rfl, slice_append_first (length_leBytes 4 _).symm, ?_, ?_⟩
    all_goals
      simp (disch := simp) only [slice_append_skip, slice_append_first, slice_zero_self,
        length_leBytes, Nat.reduceSub]

/-! ## Reading the parts of a written file -/

theorem length_coffFileHeader (emitter : BinaryEmitter) : (coffFileHeader emitter).length = 20 := by
  simp [coffFileHeader]

theorem length_sectionSymbolParts (emitter : BinaryEmitter) :
    (sectionSymbolParts emitter).length = emitter.sections.length ∧
      ∀ part ∈ sectionSymbolParts emitter, part.length = 36 := by
  constructor
  · rw [sectionSymbolParts, length_map, length_zip, length_range, Nat.min_self]
  · intro part hPart
    obtain ⟨row, -, rfl⟩ := mem_map.mp hPart
    exact length_writeSectionSymbol _ _ _ _

theorem getElem?_sectionSymbolParts (hi : emitter.sections[i]? = some section_) :
    (sectionSymbolParts emitter)[i]? = some (binaryEmitterWriteSectionSymbol section_ i
      ((coffLayout emitter).sectionNameOffsets.getD i 0) (emitter.relocationsOf i).length) := by
  have hLt := (List.getElem_of_getElem? hi).1
  have hRow : (emitter.sections.zip (List.range emitter.sections.length))[i]? =
      some (section_, i) := by
    rw [List.getElem?_zip_eq_some]
    exact ⟨hi, List.getElem?_range hLt⟩
  rw [sectionSymbolParts, List.getElem?_map, hRow, Option.map_some, coffLayout_relocCount hLt]

variable {off len : Nat}

section Read

variable {bytes : List UInt8} {headers relocs symbols : List (List UInt8)}
  (hW : Written emitter bytes headers relocs symbols)
include hW

theorem Written.width : (∀ part ∈ headers, part.length = 40) ∧ (∀ part ∈ relocs, part.length = 10) ∧
      ∀ part ∈ symbols, part.length = 18 := by
  refine ⟨?_, ?_, ?_⟩
  · intro part hPart
    obtain ⟨i, hi⟩ := mem_iff_getElem?.mp hPart
    have hLt : i < emitter.sections.length := by
      rw [← hW.headers_length]
      exact (List.getElem_of_getElem? hi).1
    obtain ⟨header, hHeader, hRun⟩ := hW.header i _ (getElem?_eq_getElem hLt)
    rw [hi, some.injEq] at hHeader
    rw [hHeader]
    exact (writeSectionHeader_fields hRun).1
  · intro part hPart
    obtain ⟨i, hi⟩ := mem_iff_getElem?.mp hPart
    have hLt : i < (orderedRelocations emitter).length := by
      rw [← hW.relocs_length]
      exact (List.getElem_of_getElem? hi).1
    obtain ⟨record, hRecord, hRun⟩ := hW.reloc i _ (getElem?_eq_getElem hLt)
    rw [hi, some.injEq] at hRecord
    rw [hRecord]
    exact length_writeRelocation hRun
  · intro part hPart
    obtain ⟨i, hi⟩ := mem_iff_getElem?.mp hPart
    have hLt : i < emitter.symbols.length := by
      rw [← hW.symbols_length]
      exact (List.getElem_of_getElem? hi).1
    obtain ⟨record, hRecord, hRun⟩ := hW.symbol i _ (getElem?_eq_getElem hLt)
    rw [hi, some.injEq] at hRecord
    rw [hRecord]
    exact length_writeSymbol hRun

theorem Written.lengths : headers.flatten.length = emitter.sections.length * 40 ∧
      (emitter.sections.flatMap BinarySection.fileBytes).length = (rawLengths emitter).sum ∧
      relocs.flatten.length = (relocLengths emitter).sum ∧
      symbols.flatten.length = emitter.symbols.length * 18 ∧
      (sectionSymbolParts emitter).flatten.length = emitter.sections.length * 36 := by
  obtain ⟨hHeaders, hRelocs, hSymbols⟩ := hW.width
  have hTotal : ∀ {parts : List (List UInt8)} {w : Nat}, (∀ part ∈ parts, part.length = w) →
      parts.flatten.length = parts.length * w := by
    intro parts w hWidth
    have h := length_flatten_take hWidth (Nat.le_refl parts.length)
    rwa [take_length] at h
  refine ⟨?_, ?_, ?_, ?_, ?_⟩
  · rw [hTotal hHeaders, hW.headers_length]
  · rw [length_flatMap]
    rfl
  · have hSum : (relocLengths emitter).sum = (orderedRelocations emitter).length * 10 := by
      rw [relocLengths, orderedRelocations, length_flatMap, sum_map_mul_right]
    rw [hTotal hRelocs, hW.relocs_length, hSum]
  · rw [hTotal hSymbols, hW.symbols_length]
  · rw [hTotal (length_sectionSymbolParts emitter).2, (length_sectionSymbolParts emitter).1]

theorem Written.slice_header {header : List UInt8} (hi : headers[i]? = some header)
    (h : off + len ≤ 40) :
    slice bytes (20 + i * 40 + off) len = slice header off len := by
  rw [hW.bytes_eq, Nat.add_assoc, ← length_coffFileHeader emitter]
  exact slice_record hW.width.1 hi h

theorem Written.slice_raw (hi : emitter.sections[i]? = some section_) :
    slice bytes (20 + emitter.sections.length * 40 + ((rawLengths emitter).take i).sum)
      section_.fileBytes.length = section_.fileBytes := by
  have hPart : (emitter.sections.map BinarySection.fileBytes)[i]? = some section_.fileBytes := by
    rw [getElem?_map, hi]
    rfl
  have hTake : (((emitter.sections.map BinarySection.fileBytes).take i).flatten).length =
      ((rawLengths emitter).take i).sum := by
    rw [List.length_flatten, rawLengths, List.map_take, List.map_map]
    rfl
  have hPre : (coffFileHeader emitter ++ headers.flatten).length =
      20 + emitter.sections.length * 40 := by
    rw [length_append, length_coffFileHeader, hW.lengths.1]
  have hFlatten : emitter.sections.flatMap BinarySection.fileBytes =
      (emitter.sections.map BinarySection.fileBytes).flatten := flatMap_def
  have hInside := slice_flatten hPart (show 0 + section_.fileBytes.length ≤ _ by rw [Nat.zero_add])
  rw [hTake, Nat.add_zero, slice_zero_self rfl] at hInside
  have hRoom : ((rawLengths emitter).take i).sum + section_.fileBytes.length ≤
      ((emitter.sections.map BinarySection.fileBytes).flatten).length := by
    by_contra hShort
    have hLen := congrArg length hInside
    rw [length_slice] at hLen
    by_cases hZero : section_.fileBytes.length = 0
    · -- an empty part still stands inside the whole
      have hSplit : (emitter.sections.map BinarySection.fileBytes).flatten =
          ((emitter.sections.map BinarySection.fileBytes).take i).flatten ++
            ((emitter.sections.map BinarySection.fileBytes).drop i).flatten := by
        rw [← flatten_append, take_append_drop]
      have hTotal := congrArg length hSplit
      rw [length_append] at hTotal
      omega
    · omega
  rw [hW.bytes_eq, ← append_assoc, ← hPre, hFlatten, slice_region hRoom, hInside]

theorem Written.slice_reloc {k : Nat} (hi : i < emitter.sections.length)
    (hk : (emitter.relocationsOf i)[k]? = some relocation) :
    ∃ record, binaryEmitterWriteRelocation emitter relocation = .ok record ∧
      ∀ {off len : Nat}, off + len ≤ 10 →
        slice bytes (20 + emitter.sections.length * 40 + (rawLengths emitter).sum +
          ((relocLengths emitter).take i).sum + k * 10 + off) len = slice record off len := by
  -- the position of the relocation in the file order
  have hPart : ((List.range emitter.sections.length).map emitter.relocationsOf)[i]? =
      some (emitter.relocationsOf i) := by
    rw [List.getElem?_map, List.getElem?_range hi]
    rfl
  have hkLt := (List.getElem_of_getElem? hk).1
  set before := ((((List.range emitter.sections.length).map emitter.relocationsOf).take i).flatten).length
    with hBefore
  have hOrdered : (orderedRelocations emitter)[before + k]? = some relocation := by
    rw [orderedRelocations, List.flatMap_def, hBefore, getElem?_flatten hPart hkLt, hk]
  have hSum : ((relocLengths emitter).take i).sum = before * 10 := by
    rw [hBefore, List.length_flatten, relocLengths, ← List.map_take, ← List.map_take,
      List.map_map, List.sum_map_mul_right]
    rfl
  obtain ⟨record, hRecord, hRun⟩ := hW.reloc (before + k) relocation hOrdered
  refine ⟨record, hRun, ?_⟩
  intro off len h
  have hPre : (coffFileHeader emitter ++ (headers.flatten ++
      emitter.sections.flatMap BinarySection.fileBytes)).length =
      20 + emitter.sections.length * 40 + (rawLengths emitter).sum := by
    obtain ⟨h₁, h₂, -⟩ := hW.lengths
    rw [List.length_append, List.length_append, length_coffFileHeader, h₁, h₂, Nat.add_assoc]
  obtain ⟨post, hBytes⟩ : ∃ post, bytes = (coffFileHeader emitter ++ (headers.flatten ++
      emitter.sections.flatMap BinarySection.fileBytes)) ++ (relocs.flatten ++ post) :=
    ⟨_, by rw [hW.bytes_eq]; simp only [List.append_assoc]; rfl⟩
  rw [hBytes, hSum, ← slice_record hW.width.2.1 hRecord h]
  congr 1
  omega

theorem Written.slice_symbol {j : Nat} (hj : symbols[j]? = some record) (h : off + len ≤ 18) :
    slice bytes (symbolTableStart emitter + j * 18 + off) len = slice record off len := by
  have hPre : (coffFileHeader emitter ++ (headers.flatten ++
      (emitter.sections.flatMap BinarySection.fileBytes ++ relocs.flatten))).length =
      symbolTableStart emitter := by
    obtain ⟨h₁, h₂, h₃, -⟩ := hW.lengths
    rw [length_append, length_append, length_append, length_coffFileHeader, h₁, h₂,
      h₃, symbolTableStart]
    omega
  obtain ⟨post, hBytes⟩ : ∃ post, bytes = (coffFileHeader emitter ++ (headers.flatten ++
      (emitter.sections.flatMap BinarySection.fileBytes ++ relocs.flatten))) ++
        (symbols.flatten ++ post) := ⟨_, by rw [hW.bytes_eq]; simp only [append_assoc]; rfl⟩
  rw [hBytes, ← hPre, Nat.add_assoc, slice_record hW.width.2.2 hj h]

theorem Written.slice_sectionSymbol (hi : emitter.sections[i]? = some section_)
    (h : off + len ≤ 36) :
    slice bytes (symbolTableStart emitter + emitter.symbols.length * 18 + i * 36 + off) len =
      slice (binaryEmitterWriteSectionSymbol section_ i
        ((coffLayout emitter).sectionNameOffsets.getD i 0) (emitter.relocationsOf i).length)
        off len := by
  have hPre : (coffFileHeader emitter ++ (headers.flatten ++
      (emitter.sections.flatMap BinarySection.fileBytes ++ (relocs.flatten ++
      symbols.flatten)))).length = symbolTableStart emitter + emitter.symbols.length * 18 := by
    obtain ⟨h₁, h₂, h₃, h₄, -⟩ := hW.lengths
    rw [length_append, length_append, length_append, length_append,
      length_coffFileHeader, h₁, h₂, h₃, h₄, symbolTableStart]
    omega
  obtain ⟨post, hBytes⟩ : ∃ post, bytes = (coffFileHeader emitter ++ (headers.flatten ++
      (emitter.sections.flatMap BinarySection.fileBytes ++ (relocs.flatten ++
      symbols.flatten)))) ++ ((sectionSymbolParts emitter).flatten ++ post) :=
    ⟨_, by rw [hW.bytes_eq]; simp only [append_assoc]; rfl⟩
  rw [hBytes, ← hPre, Nat.add_assoc,
    slice_record (length_sectionSymbolParts emitter).2 (getElem?_sectionSymbolParts hi) h]

theorem Written.bytes_split (hFits : LayoutFits emitter) :
    ∃ pre, bytes = pre ++ stringTableBytes emitter ∧
      pre.length = symbolTableStart emitter + emitter.symbols.length * 18 +
        emitter.sections.length * 36 := by
  refine ⟨coffFileHeader emitter ++ (headers.flatten ++
      (emitter.sections.flatMap BinarySection.fileBytes ++ (relocs.flatten ++ (symbols.flatten ++
      (sectionSymbolParts emitter).flatten)))), ?_, ?_⟩
  · rw [hW.bytes_eq, stringTable_written hFits]
    simp
  · obtain ⟨h₁, h₂, h₃, h₄, h₅⟩ := hW.lengths
    simp only [length_append, length_coffFileHeader, h₁, h₂, h₃, h₄, h₅, symbolTableStart]
    omega

end Read

end Mettle.Codegen
