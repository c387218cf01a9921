import Mettle.Linker.SymbolResolve

/-!
# Mettle — the binary emitter and its COFF writer

The model of `codegen/binary_emitter.c`: the tables of sections, symbols and
relocations with the operations that fill them, and
`binary_emitter_write_coff_object_file`, which lays the tables out as bytes. All
sizes and offsets of the written file are `uint32_t` in the source; the model keeps
each wrap as `% 2 ^ 32`. `BINARY_SECTION_INDEX_NONE` is `none`. Failures of the file
system and of allocation are not modelled; the result of the writer is the bytes of
the file, or the text it stores as the emitter's error.

`Built` is reachability by the operations; `Built.wellFormed` collects what every
emitter built through them satisfies.
-/

namespace Mettle.Codegen

open Mettle.Lib Mettle.Linker List Option

/-! ## Data model -/

/-- The kinds of sections. -/
inductive BinarySectionKind
  | text
  | rdata
  | data
  | bss
  deriving DecidableEq

/-- The bindings of symbols. -/
inductive BinarySymbolBinding
  | «local»
  | global
  | external
  deriving DecidableEq

/-- The kinds of fixups. -/
inductive BinaryRelocationKind
  | rel32
  | addr64
  | addr32nb
  | sectionRel32
  deriving DecidableEq

/-- `size` of the source is the length of `data`. -/
structure BinarySection where
  name : CString
  kind : BinarySectionKind
  characteristics : Nat
  alignment : Nat
  data : List UInt8
  virtualSize : Nat
  deriving DecidableEq

/-- A symbol; external ones have no section. -/
structure BinarySymbol where
  name : CString
  binding : BinarySymbolBinding
  sectionIndex : Option Nat
  value : Nat
  size : Nat
  deriving DecidableEq

/-- A fixup at an offset of a section. -/
structure BinaryRelocation where
  sectionIndex : Nat
  offset : Nat
  kind : BinaryRelocationKind
  symbolName : CString
  addend : Int
  deriving DecidableEq

/-- The three arrays of the emitter. -/
structure BinaryEmitter where
  sections : List BinarySection
  symbols : List BinarySymbol
  relocations : List BinaryRelocation
  deriving DecidableEq

/-! ## Filling the tables -/

/-- The empty emitter. -/
def binaryEmitterCreate : BinaryEmitter := ⟨[], [], []⟩

def BinarySection.refine (section_ : BinarySection) (characteristics alignment : Nat) :
    BinarySection :=
  { section_ with
    alignment := max section_.alignment alignment
    characteristics := if characteristics ≠ 0 then characteristics else section_.characteristics }

/-- The section of the name, a new one if there is none. -/
def binaryEmitterGetOrCreateSection (emitter : BinaryEmitter) (name : CString)
    (kind : BinarySectionKind) (characteristics alignment : Nat) : BinaryEmitter × Option Nat :=
  if name = [] then (emitter, none)
  else
    match emitter.sections.findIdx? (fun section_ => section_.name == name) with
    | some i =>
      ({ emitter with sections := emitter.sections.modify i (·.refine characteristics alignment) },
        some i)
    | none =>
      let section_ : BinarySection :=
        { name, kind, characteristics, alignment := if alignment = 0 then 1 else alignment
          data := [], virtualSize := 0 }
      ({ emitter with sections := emitter.sections ++ [section_] }, some emitter.sections.length)

def BinarySection.append (section_ : BinarySection) (bytes : List UInt8) : BinarySection :=
  { section_ with
    data := section_.data ++ bytes
    virtualSize := max section_.virtualSize (section_.data.length + bytes.length) }

/-- Fills a section up to an alignment. -/
def binaryEmitterAlignSection (emitter : BinaryEmitter) (sectionIndex alignment : Nat)
    (fillByte : UInt8) : Option BinaryEmitter :=
  match emitter.sections[sectionIndex]? with
  | none => none
  | some section_ =>
    if alignment = 0 then none
    else
      let aligned := { section_ with alignment := max section_.alignment alignment }
      let remainder := section_.data.length % alignment
      let section_ :=
        if remainder = 0 then aligned
        else aligned.append (List.replicate (alignment - remainder) fillByte)
      some { emitter with sections := emitter.sections.set sectionIndex section_ }

/-- Adds bytes to a section. -/
def binaryEmitterAppendBytes (emitter : BinaryEmitter) (sectionIndex : Nat)
    (bytes : List UInt8) : Option BinaryEmitter :=
  match emitter.sections[sectionIndex]? with
  | none => none
  | some section_ =>
    some { emitter with sections := emitter.sections.set sectionIndex (section_.append bytes) }

/-- Adds zeros to a section. -/
def binaryEmitterAppendZeros (emitter : BinaryEmitter) (sectionIndex size : Nat) :
    Option BinaryEmitter :=
  binaryEmitterAppendBytes emitter sectionIndex (List.replicate size 0)

/-- Sets the size in memory, at least that of the data. -/
def binaryEmitterSetSectionVirtualSize (emitter : BinaryEmitter)
    (sectionIndex virtualSize : Nat) : Option BinaryEmitter :=
  match emitter.sections[sectionIndex]? with
  | none => none
  | some section_ =>
    if virtualSize < section_.data.length then none
    else
      some { emitter with
        sections := emitter.sections.set sectionIndex { section_ with virtualSize := virtualSize } }

/-- The lookup returns an `int`, so an index past `INT_MAX` counts as not found. -/
def binaryEmitterFindSymbolIndex (emitter : BinaryEmitter) (name : CString) : Option Nat :=
  match emitter.symbols.findIdx? (fun symbol => symbol.name == name) with
  | none => none
  | some i => if i < 2 ^ 31 then some i else none

def binaryEmitterDefineSymbol (emitter : BinaryEmitter) (name : CString)
    (binding : BinarySymbolBinding) (sectionIndex : Option Nat) (value size : Nat) :
    Option BinaryEmitter :=
  if name = [] then none
  else
    let symbol : BinarySymbol := { name, binding, sectionIndex, value, size }
    match binaryEmitterFindSymbolIndex emitter name with
    | some i => some { emitter with symbols := emitter.symbols.set i symbol }
    | none => some { emitter with symbols := emitter.symbols ++ [symbol] }

/-- Adds a fixup; its symbol is named only. -/
def binaryEmitterAddRelocation (emitter : BinaryEmitter) (sectionIndex offset : Nat)
    (kind : BinaryRelocationKind) (symbolName : CString) (addend : Int) : Option BinaryEmitter :=
  if symbolName = [] ∨ sectionIndex ≥ emitter.sections.length then none
  else
    some { emitter with
      relocations := emitter.relocations ++ [{ sectionIndex, offset, kind, symbolName, addend }] }

/-- The emitters built through the operations above; a C string holds no NUL. -/
inductive Built : BinaryEmitter → Prop
  | create : Built binaryEmitterCreate
  | section_ {emitter : BinaryEmitter} (name kind characteristics alignment)
      (hName : (0 : UInt8) ∉ name) : Built emitter →
      Built (binaryEmitterGetOrCreateSection emitter name kind characteristics alignment).1
  | align {emitter emitter' : BinaryEmitter} (sectionIndex alignment fillByte) : Built emitter →
      binaryEmitterAlignSection emitter sectionIndex alignment fillByte = some emitter' →
      Built emitter'
  | append {emitter emitter' : BinaryEmitter} (sectionIndex bytes) : Built emitter →
      binaryEmitterAppendBytes emitter sectionIndex bytes = some emitter' → Built emitter'
  | virtualSize {emitter emitter' : BinaryEmitter} (sectionIndex virtualSize) : Built emitter →
      binaryEmitterSetSectionVirtualSize emitter sectionIndex virtualSize = some emitter' →
      Built emitter'
  | symbol {emitter emitter' : BinaryEmitter} (name binding sectionIndex value size)
      (hName : (0 : UInt8) ∉ name) : Built emitter →
      binaryEmitterDefineSymbol emitter name binding sectionIndex value size = some emitter' →
      Built emitter'
  | relocation {emitter emitter' : BinaryEmitter} (sectionIndex offset kind symbolName addend) :
      Built emitter →
      binaryEmitterAddRelocation emitter sectionIndex offset kind symbolName addend =
        some emitter' → Built emitter'

structure WellFormed (emitter : BinaryEmitter) : Prop where
  sectionName : ∀ section_ ∈ emitter.sections, (0 : UInt8) ∉ section_.name
  size_le : ∀ section_ ∈ emitter.sections, section_.data.length ≤ section_.virtualSize
  symbolName : ∀ symbol ∈ emitter.symbols, (0 : UInt8) ∉ symbol.name

/-! ## Writing the COFF file -/

/-- The COFF flags of a kind. -/
def binaryEmitterDefaultSectionCharacteristics : BinarySectionKind → Nat
  | .text => 0x60000020
  | .rdata => 0x40000040
  | .data => 0xC0000040
  | .bss => 0xC0000080

/-- The COFF type of a fixup. -/
def binaryEmitterMapRelocationKind : BinaryRelocationKind → Nat
  | .addr64 => COFF_RELOC_AMD64_ADDR64
  | .addr32nb => COFF_RELOC_AMD64_ADDR32NB
  | .sectionRel32 => COFF_RELOC_AMD64_SECREL
  | .rel32 => COFF_RELOC_AMD64_REL32

/-- `%zu`. -/
def decimal (n : Nat) : List UInt8 :=
  if n < 10 then [UInt8.ofNat (48 + n)] else decimal (n / 10) ++ [UInt8.ofNat (48 + n % 10)]

def padField (bytes : List UInt8) : List UInt8 := bytes ++ List.replicate (8 - bytes.length) 0

/-- A long section name is written as `/offset`, which must leave room for the NUL that
`snprintf` adds. -/
def binaryEmitterWriteSectionName (name : CString) (stringTableOffset : Nat) :
    Option (List UInt8) :=
  if name.length ≤ 8 then some (padField name)
  else if (decimal stringTableOffset).length + 1 ≥ 8 then none
  else some (padField (47 :: decimal stringTableOffset))

/-- A name in place, or its offset in the string table. -/
def binaryEmitterWriteSymbolName (name : CString) (stringTableOffset : Nat) : List UInt8 :=
  if name.length ≤ 8 then padField name
  else leBytes 4 0 ++ leBytes 4 stringTableOffset

/-- The string-table loop: the offset of each name (0 for a short one), from `size` on. -/
def nameOffsets : List CString → Nat → List Nat
  | [], _ => []
  | name :: rest, size =>
    if name.length > 8 then size :: nameOffsets rest ((size + name.length + 1) % 2 ^ 32)
    else 0 :: nameOffsets rest size

def nameOffsetsEnd : List CString → Nat → Nat
  | [], size => size
  | name :: rest, size =>
    if name.length > 8 then nameOffsetsEnd rest ((size + name.length + 1) % 2 ^ 32)
    else nameOffsetsEnd rest size

/-- The file offset of each part of the given length (0 for an empty part), from `offset`
on: the loops over the raw data and over the relocation tables. -/
def partOffsets : List Nat → Nat → List Nat
  | [], _ => []
  | length :: rest, offset =>
    if length > 0 then offset :: partOffsets rest ((offset + length) % 2 ^ 32)
    else 0 :: partOffsets rest offset

def partOffsetsEnd : List Nat → Nat → Nat
  | [], offset => offset
  | length :: rest, offset =>
    if length > 0 then partOffsetsEnd rest ((offset + length) % 2 ^ 32)
    else partOffsetsEnd rest offset

def BinarySection.fileBytes (section_ : BinarySection) : List UInt8 :=
  if section_.kind = .bss then [] else section_.data

/-- The relocations of section `i`, in the order they were added: the counting sort of
the source is stable. -/
def BinaryEmitter.relocationsOf (emitter : BinaryEmitter) (i : Nat) : List BinaryRelocation :=
  emitter.relocations.filter fun relocation => relocation.sectionIndex == i

def binaryEmitterWriteSectionHeader (section_ : BinarySection)
    (nameOffset rawOffset relocOffset relocCount : Nat) : Except String (List UInt8) :=
  let characteristics :=
    if section_.characteristics = 0 then
      binaryEmitterDefaultSectionCharacteristics section_.kind
    else section_.characteristics
  match binaryEmitterWriteSectionName section_.name nameOffset with
  | none => .error "Failed while writing COFF section headers"
  | some nameField =>
    .ok (nameField ++ (leBytes 4 0 ++ (leBytes 4 0 ++ (leBytes 4 section_.fileBytes.length ++
      (leBytes 4 rawOffset ++ (leBytes 4 relocOffset ++ (leBytes 4 0 ++
      (leBytes 2 relocCount ++ (leBytes 2 0 ++ leBytes 4 characteristics)))))))))

def binaryEmitterWriteRelocation (emitter : BinaryEmitter) (relocation : BinaryRelocation) :
    Except String (List UInt8) :=
  match binaryEmitterFindSymbolIndex emitter relocation.symbolName with
  | none =>
    let name := showName relocation.symbolName
    .error s!"Relocation refers to an undefined symbol '{name}'"
  | some symbolIndex =>
    .ok (leBytes 4 relocation.offset ++ (leBytes 4 symbolIndex ++
      leBytes 2 (binaryEmitterMapRelocationKind relocation.kind)))

def storageClassOf : BinarySymbolBinding → Nat
  | .local => COFF_STORAGE_CLASS_STATIC
  | _ => COFF_STORAGE_CLASS_EXTERNAL

def symbolRecord (symbol : BinarySymbol) (nameOffset sectionNumber type : Nat) : List UInt8 :=
  binaryEmitterWriteSymbolName symbol.name nameOffset ++ (leBytes 4 symbol.value ++
    (leBytes 2 sectionNumber ++ (leBytes 2 type ++
    (leBytes 1 (storageClassOf symbol.binding) ++ leBytes 1 0))))

def symbolType (sections : List BinarySection) (sectionIndex : Option Nat) : Nat :=
  match sectionIndex.bind (sections[·]?) with
  | some section_ => if section_.kind = .text then 0x20 else 0
  | none => 0

def binaryEmitterWriteSymbol (sections : List BinarySection) (symbol : BinarySymbol)
    (nameOffset : Nat) : Except String (List UInt8) :=
  match symbol.sectionIndex with
  | none => .ok (symbolRecord symbol nameOffset 0 0)
  | some sectionIndex =>
    if sectionIndex ≥ sections.length then .error "Symbol refers to an invalid section"
    else
      .ok (symbolRecord symbol nameOffset (sectionIndex + 1)
        (symbolType sections (some sectionIndex)))

/-- The section symbol of section `i` and its auxiliary record. -/
def binaryEmitterWriteSectionSymbol (section_ : BinarySection) (i nameOffset relocCount : Nat) :
    List UInt8 :=
  binaryEmitterWriteSymbolName section_.name nameOffset ++ (leBytes 4 0 ++ (leBytes 2 (i + 1) ++
    (leBytes 2 0 ++ (leBytes 1 COFF_STORAGE_CLASS_STATIC ++ (leBytes 1 1 ++
    (leBytes 4 (max section_.virtualSize section_.data.length) ++ (leBytes 2 relocCount ++
    (leBytes 2 0 ++ (leBytes 4 0 ++ (leBytes 2 0 ++ List.replicate 4 0))))))))))

def stringTableNames (names : List CString) (offsets : List Nat) : List UInt8 :=
  (names.zip offsets).flatMap fun row => if row.2 ≠ 0 then row.1 ++ [0] else []

/-- The offsets and counts the writer computes before it writes anything. -/
structure CoffLayout where
  sectionNameOffsets : List Nat
  symbolNameOffsets : List Nat
  stringTableSize : Nat
  relocCounts : List Nat
  rawOffsets : List Nat
  relocOffsets : List Nat
  pointerToSymbolTable : Nat
  totalSymbolRecords : Nat

def coffLayout (emitter : BinaryEmitter) : CoffLayout :=
  let sectionNames := emitter.sections.map BinarySection.name
  let symbolNames := emitter.symbols.map BinarySymbol.name
  let sectionNamesEnd := nameOffsetsEnd sectionNames 4
  let relocCounts := (List.range emitter.sections.length).map fun i =>
    (emitter.relocationsOf i).length
  let rawLengths := emitter.sections.map fun section_ => section_.fileBytes.length
  let relocLengths := relocCounts.map (· * 10)
  let rawStart := (20 + emitter.sections.length * 40) % 2 ^ 32
  let relocStart := partOffsetsEnd rawLengths rawStart
  { sectionNameOffsets := nameOffsets sectionNames 4
    symbolNameOffsets := nameOffsets symbolNames sectionNamesEnd
    stringTableSize := nameOffsetsEnd symbolNames sectionNamesEnd
    relocCounts
    rawOffsets := partOffsets rawLengths rawStart
    relocOffsets := partOffsets relocLengths relocStart
    pointerToSymbolTable := partOffsetsEnd relocLengths relocStart
    totalSymbolRecords := emitter.symbols.length + emitter.sections.length * 2 }

/-- `binary_emitter_write_coff_object_file`: the bytes of the file. -/
def binaryEmitterWriteCoffObjectFile (emitter : BinaryEmitter) : Except String (List UInt8) :=
  let sections := emitter.sections
  let sectionIndices := List.range sections.length
  let layout := coffLayout emitter
  if sections.length > 0xFFFF then .error "Too many sections for COFF object file"
  else if emitter.relocations.length > 0xFFFFFFFF ∨ emitter.symbols.length > 0xFFFFFFFF then
    .error "Emitter tables exceed COFF limits"
  else if sections.length > (0xFFFFFFFF - emitter.symbols.length) / 2 then
    .error "Section symbol records exceed COFF limits"
  else if emitter.relocations.any (fun r => r.sectionIndex ≥ sections.length) then
    .error "Relocation refers to an invalid section"
  else if layout.relocCounts.any (· > 0xFFFF) then
    .error "Section relocation count exceeds COFF limit"
  else do
    let fileHeader := leBytes 2 COFF_MACHINE_AMD64 ++ (leBytes 2 sections.length ++
      (leBytes 4 0 ++ (leBytes 4 layout.pointerToSymbolTable ++
      (leBytes 4 layout.totalSymbolRecords ++ (leBytes 2 0 ++ leBytes 2 0)))))
    let sectionHeaders ← (sections.zip sectionIndices).mapM fun row =>
      binaryEmitterWriteSectionHeader row.1 (layout.sectionNameOffsets.getD row.2 0)
        (layout.rawOffsets.getD row.2 0) (layout.relocOffsets.getD row.2 0)
        (layout.relocCounts.getD row.2 0)
    let payload := sections.flatMap BinarySection.fileBytes
    let relocations ← (sectionIndices.flatMap emitter.relocationsOf).mapM
      (binaryEmitterWriteRelocation emitter)
    let symbols ← (emitter.symbols.zip layout.symbolNameOffsets).mapM fun row =>
      binaryEmitterWriteSymbol sections row.1 row.2
    let sectionSymbols := (sections.zip sectionIndices).flatMap fun row =>
      binaryEmitterWriteSectionSymbol row.1 row.2 (layout.sectionNameOffsets.getD row.2 0)
        (layout.relocCounts.getD row.2 0)
    let stringTable := leBytes 4 layout.stringTableSize ++
      (stringTableNames (sections.map BinarySection.name) layout.sectionNameOffsets ++
        stringTableNames (emitter.symbols.map BinarySymbol.name) layout.symbolNameOffsets)
    return fileHeader ++ (sectionHeaders.flatten ++ (payload ++ (relocations.flatten ++
      (symbols.flatten ++ (sectionSymbols ++ stringTable)))))

/-! ## What every built emitter satisfies -/

variable {emitter : BinaryEmitter}

theorem wellFormed_set (hWf : WellFormed emitter) {i : Nat}
    {section_ : BinarySection} (hName : (0 : UInt8) ∉ section_.name)
    (hSize : section_.data.length ≤ section_.virtualSize) :
    WellFormed { emitter with sections := emitter.sections.set i section_ } := by
  refine ⟨?_, ?_, hWf.symbolName⟩
  · intro s hs
    rcases mem_or_eq_of_mem_set hs with hOld | rfl
    · exact hWf.sectionName s hOld
    · exact hName
  · intro s hs
    rcases mem_or_eq_of_mem_set hs with hOld | rfl
    · exact hWf.size_le s hOld
    · exact hSize

theorem BinarySection.append_size_le (section_ : BinarySection) (bytes : List UInt8) :
    (section_.append bytes).data.length ≤ (section_.append bytes).virtualSize := by
  simp only [BinarySection.append, length_append]
  exact le_max_right _ _

/-- By induction on the operations: each keeps names free of NUL bytes and the virtual
size at or above the number of bytes. -/
theorem Built.wellFormed (h : Built emitter) : WellFormed emitter := by
  induction h with
  | create => exact ⟨by simp [binaryEmitterCreate], by simp [binaryEmitterCreate],
      by simp [binaryEmitterCreate]⟩
  | section_ name kind characteristics alignment hName _ ih =>
    unfold binaryEmitterGetOrCreateSection
    split
    · exact ih
    · split
      · -- an existing section keeps its name and its bytes
        refine ⟨?_, ?_, ih.symbolName⟩
        · intro s hs
          obtain ⟨i, hi⟩ := mem_iff_getElem?.mp hs
          rw [getElem?_modify] at hi
          obtain ⟨s₀, hs₀, rfl⟩ := map_eq_some_iff.mp hi
          have hOld := ih.sectionName s₀ (mem_of_getElem? hs₀)
          split
          · exact hOld
          · exact hOld
        · intro s hs
          obtain ⟨i, hi⟩ := mem_iff_getElem?.mp hs
          rw [getElem?_modify] at hi
          obtain ⟨s₀, hs₀, rfl⟩ := map_eq_some_iff.mp hi
          have hOld := ih.size_le s₀ (mem_of_getElem? hs₀)
          split
          · exact hOld
          · exact hOld
      · refine ⟨?_, ?_, ih.symbolName⟩
        · intro s hs
          rcases mem_append.mp hs with hOld | hNew
          · exact ih.sectionName s hOld
          · rw [mem_singleton.mp hNew]
            exact hName
        · intro s hs
          rcases mem_append.mp hs with hOld | hNew
          · exact ih.size_le s hOld
          · rw [mem_singleton.mp hNew]
            exact Nat.le_refl 0
  | align sectionIndex alignment fillByte _ hRun ih =>
    unfold binaryEmitterAlignSection at hRun
    split at hRun
    · cases hRun
    · rename_i section_ hGet
      have hMem := mem_of_getElem? hGet
      split at hRun
      · cases hRun
      · cases hRun
        refine wellFormed_set ih ?_ ?_
        · split
          · exact ih.sectionName section_ hMem
          · exact ih.sectionName section_ hMem
        · split
          · exact ih.size_le section_ hMem
          · exact BinarySection.append_size_le _ _
  | append sectionIndex bytes _ hRun ih =>
    unfold binaryEmitterAppendBytes at hRun
    split at hRun
    · cases hRun
    · rename_i section_ hGet
      cases hRun
      exact wellFormed_set ih (ih.sectionName section_ (mem_of_getElem? hGet))
        (BinarySection.append_size_le _ _)
  | virtualSize sectionIndex virtualSize _ hRun ih =>
    unfold binaryEmitterSetSectionVirtualSize at hRun
    split at hRun
    · cases hRun
    · rename_i section_ hGet
      split at hRun
      · cases hRun
      · rename_i hLe
        cases hRun
        exact wellFormed_set ih (ih.sectionName section_ (mem_of_getElem? hGet))
          (Nat.le_of_not_lt hLe)
  | symbol name binding sectionIndex value size hName _ hRun ih =>
    unfold binaryEmitterDefineSymbol at hRun
    split at hRun
    · cases hRun
    · dsimp only at hRun
      split at hRun
      · cases hRun
        refine ⟨ih.sectionName, ih.size_le, ?_⟩
        intro s hs
        rcases mem_or_eq_of_mem_set hs with hOld | rfl
        · exact ih.symbolName s hOld
        · exact hName
      · cases hRun
        refine ⟨ih.sectionName, ih.size_le, ?_⟩
        intro s hs
        rcases mem_append.mp hs with hOld | hNew
        · exact ih.symbolName s hOld
        · rw [mem_singleton.mp hNew]
          exact hName
  | relocation sectionIndex offset kind symbolName addend _ hRun ih =>
    unfold binaryEmitterAddRelocation at hRun
    split at hRun
    · cases hRun
    · cases hRun
      exact ⟨ih.sectionName, ih.size_le, ih.symbolName⟩

end Mettle.Codegen
