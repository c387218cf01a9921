import Mathlib.Data.List.DropRight
import Mettle.Lib.Bytes

/-!
# Mettle — the COFF object reader

The model of `linker/coff_reader.c` and the byte accessors of
`linker/linker_common.h`. A file is its list of bytes and a C string is its list
of bytes without the terminator; an error is the text the reader stores in
`error_message_out`. Numbers read from the file are bounded by the width of the
field they were read from, so the reader's `size_t` arithmetic is plain `Nat`
arithmetic, except for the one explicit `uint32_t` cast of the string-table
offset, which is modelled.
-/

namespace Mettle.Linker

open Mettle.Lib

abbrev CString := List UInt8

def cLit (s : String) : CString := s.toList.map fun c => UInt8.ofNat c.toNat

/-- `%s` in an error text. -/
def showName (name : CString) : String :=
  String.ofList (name.map fun b => Char.ofNat b.toNat)

/-! ## Byte accessors -/

def linkerReadU16 (data : List UInt8) (off : Nat) : Nat := leNat (slice data off 2)

def linkerReadU32 (data : List UInt8) (off : Nat) : Nat := leNat (slice data off 4)

/-- Eight bytes, the lowest first. -/
def linkerReadU64 (data : List UInt8) (off : Nat) : Nat := leNat (slice data off 8)

def linkerWriteU32 (data : List UInt8) (off value : Nat) : List UInt8 :=
  patch data off (leBytes 4 value)

def linkerWriteU64 (data : List UInt8) (off value : Nat) : List UInt8 :=
  patch data off (leBytes 8 value)

/-- The cast `(int16_t)n`. -/
def toInt16 (n : Nat) : Int := Int.bmod n (2 ^ 16)

/-- Two bytes with a sign. -/
def coffReaderI16 (data : List UInt8) (off : Nat) : Int := toInt16 (linkerReadU16 data off)

/-! ## The parsed object -/

/-- The kinds of sections. -/
inductive CoffSectionKind
  | unknown
  | text
  | rdata
  | data
  | bss
  | pdata
  | xdata
  deriving DecidableEq

/-- A relocation as the file has it. -/
structure CoffRelocation where
  virtualAddress : Nat
  symbolTableIndex : Nat
  type : Nat
  deriving DecidableEq

/-- A parsed section. -/
structure CoffSection where
  name : CString
  kind : CoffSectionKind
  virtualSize : Nat
  characteristics : Nat
  rawData : List UInt8
  relocations : List CoffRelocation
  deriving DecidableEq

/-- A record of the symbol table; `name` is `NULL` for auxiliary records only. -/
structure CoffSymbol where
  rawIndex : Nat
  name : Option CString
  value : Nat
  sectionNumber : Int
  type : Nat
  storageClass : Nat
  auxiliaryCount : Nat
  isAuxiliary : Bool
  primarySymbolIndex : Nat
  hasAuxiliaryRecord : Bool
  auxSectionLength : Nat
  auxSectionRelocationCount : Nat
  auxSectionLineNumberCount : Nat
  deriving DecidableEq

/-- What is read of an object file. -/
structure CoffObject where
  sections : List CoffSection
  symbols : List CoffSymbol
  deriving DecidableEq

def CoffSection.sizeOfRawData (section_ : CoffSection) : Nat := section_.rawData.length

/-! ## Section kinds -/

/-- `name` is `prefix`, or `prefix` followed by `$` or `.`. -/
def coffSectionNameMatchesPrefix (name pre : CString) : Bool :=
  name.take pre.length == pre &&
    match name.drop pre.length with
    | [] => true
    | suffix :: _ => suffix == 36 || suffix == 46

/-- The kind by the name. -/
def coffSectionKindFromName (name : CString) : CoffSectionKind :=
  if name.head? ≠ some 46 then .unknown
  else if coffSectionNameMatchesPrefix name (cLit ".text") then .text
  else if coffSectionNameMatchesPrefix name (cLit ".rdata") then .rdata
  else if coffSectionNameMatchesPrefix name (cLit ".data") then .data
  else if coffSectionNameMatchesPrefix name (cLit ".bss") then .bss
  else if coffSectionNameMatchesPrefix name (cLit ".pdata") then .pdata
  else if coffSectionNameMatchesPrefix name (cLit ".xdata") then .xdata
  else .unknown

def COFF_RELOC_AMD64_ADDR64 : Nat := 1
def COFF_RELOC_AMD64_ADDR32NB : Nat := 3
def COFF_RELOC_AMD64_REL32 : Nat := 4
def COFF_RELOC_AMD64_SECREL : Nat := 11

/-- The name of a type in messages. -/
def coffRelocationTypeName (type : Nat) : String :=
  if type = COFF_RELOC_AMD64_ADDR64 then "ADDR64"
  else if type = COFF_RELOC_AMD64_ADDR32NB then "ADDR32NB"
  else if type = COFF_RELOC_AMD64_REL32 then "REL32"
  else if type = COFF_RELOC_AMD64_SECREL then "SECREL"
  else "UNKNOWN"

/-! ## Names -/

def COFF_FILE_HEADER_SIZE : Nat := 20
def COFF_SECTION_HEADER_SIZE : Nat := 40
def COFF_SYMBOL_SIZE : Nat := 18
def COFF_RELOCATION_SIZE : Nat := 10
def COFF_MACHINE_AMD64 : Nat := 0x8664

def cString (bytes : List UInt8) : CString := bytes.takeWhile (· ≠ 0)

/-- A field without its zeros at the end. -/
def coffReaderDupBytesTrimmed (bytes : List UInt8) : CString :=
  cString (bytes.rdropWhile (· == 0))

/-- `NULL` when no terminator lies in the range. -/
def coffReaderDupCstringRange (bytes : List UInt8) : Option CString :=
  if (0 : UInt8) ∈ bytes then some (cString bytes) else none

/-- The range is inside the file. -/
def coffReaderRangeOk (fileSize offset length : Nat) : Bool :=
  if offset > fileSize then false
  else if length > fileSize - offset then false
  else true

/-- The string table is `none` when the file has none. -/
def coffReaderStringFromTable (stringTable : Option (List UInt8)) (offset : Nat) :
    Option CString :=
  match stringTable with
  | none => none
  | some table =>
    if table.length < 4 then none
    else if offset < 4 ∨ offset ≥ table.length then none
    else coffReaderDupCstringRange (table.drop offset)

def isDigit (b : UInt8) : Bool := 48 ≤ b && b ≤ 57

/-- The digit loop of a `/decimal` section name: `none` at a character that is not
a digit, otherwise the offset read up to the NUL or the end of the field. -/
def coffReaderParseSectionNameOffset : List UInt8 → Nat → Option Nat
  | [], offset => some offset
  | b :: bs, offset =>
    if b = 0 then some offset
    else if isDigit b then
      coffReaderParseSectionNameOffset bs ((offset * 10 + (b.toNat - 48)) % 2 ^ 32)
    else none

/-- A name in place or in the string table. -/
def coffReaderParseSectionName (field : List UInt8) (stringTable : Option (List UInt8)) :
    Option CString :=
  if field.head? = some 47 then
    match coffReaderParseSectionNameOffset field.tail 0 with
    | none => some (coffReaderDupBytesTrimmed field)
    | some offset => coffReaderStringFromTable stringTable offset
  else some (coffReaderDupBytesTrimmed field)

/-- A name in place or in the string table. -/
def coffReaderParseSymbolName (field : List UInt8) (stringTable : Option (List UInt8)) :
    Option CString :=
  let zeroPrefix := linkerReadU32 field 0
  let offset := linkerReadU32 field 4
  if zeroPrefix = 0 ∧ offset ≠ 0 then coffReaderStringFromTable stringTable offset
  else some (coffReaderDupBytesTrimmed field)

/-! ## The three tables -/

/-- The table behind the symbols, if there is one. -/
def coffReaderParseStringTable (pointerToSymbolTable symbolCount : Nat) (file : List UInt8) :
    Except String (Option (List UInt8)) :=
  let stringTableOffset := pointerToSymbolTable + symbolCount * COFF_SYMBOL_SIZE
  if stringTableOffset > file.length then
    .error "COFF string table offset is out of range"
  else if stringTableOffset = file.length then .ok none
  else if !coffReaderRangeOk file.length (stringTableOffset % 2 ^ 32) 4 then
    .error "COFF string table header is truncated"
  else
    let stringTableSize := linkerReadU32 file stringTableOffset
    if stringTableSize = 0 then .ok none
    else if stringTableSize < 4 then .error "COFF string table size is invalid"
    else if !coffReaderRangeOk file.length (stringTableOffset % 2 ^ 32) stringTableSize then
      .error "COFF string table extends past end of file"
    else .ok (some (slice file stringTableOffset stringTableSize))

def coffReaderParseRelocation (file : List UInt8) (pointerToRelocations r : Nat) :
    CoffRelocation :=
  let relocation := pointerToRelocations + r * COFF_RELOCATION_SIZE
  { virtualAddress := linkerReadU32 file relocation
    symbolTableIndex := linkerReadU32 file (relocation + 4)
    type := linkerReadU16 file (relocation + 8) }

def coffReaderParseSection (stringTable : Option (List UInt8)) (file : List UInt8) (i : Nat) :
    Except String CoffSection :=
  let header := COFF_FILE_HEADER_SIZE + i * COFF_SECTION_HEADER_SIZE
  match coffReaderParseSectionName (slice file header 8) stringTable with
  | none => .error s!"Failed to resolve COFF section name {i + 1}"
  | some name =>
    let virtualSize := linkerReadU32 file (header + 8)
    let sizeOfRawData := linkerReadU32 file (header + 16)
    let pointerToRawData := linkerReadU32 file (header + 20)
    let pointerToRelocations := linkerReadU32 file (header + 24)
    let numberOfRelocations := linkerReadU16 file (header + 32)
    let characteristics := linkerReadU32 file (header + 36)
    if sizeOfRawData > 0 ∧ !coffReaderRangeOk file.length pointerToRawData sizeOfRawData then
      .error s!"Section '{showName name}' raw data is out of range"
    else if numberOfRelocations > 0 ∧ !coffReaderRangeOk file.length pointerToRelocations
        (numberOfRelocations * COFF_RELOCATION_SIZE) then
      .error s!"Section '{showName name}' relocation table is out of range"
    else
      .ok { name, kind := coffSectionKindFromName name, virtualSize, characteristics
            rawData := slice file pointerToRawData sizeOfRawData
            relocations := (List.range numberOfRelocations).map
              (coffReaderParseRelocation file pointerToRelocations) }

/-- The section headers with data and relocations. -/
def coffReaderParseSections (sectionCount : Nat) (stringTable : Option (List UInt8))
    (file : List UInt8) : Except String (List CoffSection) :=
  if sectionCount = 0 then .ok []
  else if !coffReaderRangeOk file.length COFF_FILE_HEADER_SIZE
      (sectionCount * COFF_SECTION_HEADER_SIZE) then
    .error "COFF section table is truncated"
  else (List.range sectionCount).mapM (coffReaderParseSection stringTable file)

def auxiliarySymbol (i primarySymbolIndex : Nat) : CoffSymbol :=
  { rawIndex := i, name := none, value := 0, sectionNumber := 0, type := 0
    storageClass := 0, auxiliaryCount := 0, isAuxiliary := true
    primarySymbolIndex := primarySymbolIndex, hasAuxiliaryRecord := false
    auxSectionLength := 0, auxSectionRelocationCount := 0, auxSectionLineNumberCount := 0 }

/-- The symbol loop from entry `i` with `remaining` entries to go. -/
def coffReaderParseSymbolsFrom (stringTable : Option (List UInt8)) (file : List UInt8)
    (pointerToSymbolTable : Nat) :
    (remaining i auxRemaining primarySymbolIndex : Nat) → Except String (List CoffSymbol)
  | 0, _, _, _ => .ok []
  | remaining + 1, i, auxRemaining + 1, primarySymbolIndex => do
    let rest ← coffReaderParseSymbolsFrom stringTable file pointerToSymbolTable remaining
      (i + 1) auxRemaining primarySymbolIndex
    return auxiliarySymbol i primarySymbolIndex :: rest
  | remaining + 1, i, 0, primarySymbolIndex =>
    let entry := pointerToSymbolTable + i * COFF_SYMBOL_SIZE
    match coffReaderParseSymbolName (slice file entry 8) stringTable with
    -- The name is NULL only after a failed string-table lookup, and then the
    -- entry's name field is not all zero.
    | none => .error s!"Failed to resolve COFF symbol name at index {i}"
    | some name =>
      let auxiliaryCount := leNat (slice file (entry + 17) 1)
      if auxiliaryCount > remaining then
        .error s!"Symbol '{showName name}' has truncated auxiliary records"
      else
        let hasAux := decide (auxiliaryCount > 0)
        let auxEntry := entry + COFF_SYMBOL_SIZE
        let symbol : CoffSymbol :=
          { rawIndex := i, name := some name, value := linkerReadU32 file (entry + 8)
            sectionNumber := coffReaderI16 file (entry + 12)
            type := linkerReadU16 file (entry + 14)
            storageClass := leNat (slice file (entry + 16) 1)
            auxiliaryCount := auxiliaryCount, isAuxiliary := false
            primarySymbolIndex := i, hasAuxiliaryRecord := hasAux
            auxSectionLength := if hasAux then linkerReadU32 file auxEntry else 0
            auxSectionRelocationCount := if hasAux then linkerReadU16 file (auxEntry + 4) else 0
            auxSectionLineNumberCount :=
              if hasAux then linkerReadU16 file (auxEntry + 6) else 0 }
        do
          let rest ← coffReaderParseSymbolsFrom stringTable file pointerToSymbolTable remaining
            (i + 1) auxiliaryCount (if hasAux then i else primarySymbolIndex)
          return symbol :: rest

/-- The symbols without their auxiliary records. -/
def coffReaderParseSymbols (pointerToSymbolTable symbolCount : Nat)
    (stringTable : Option (List UInt8)) (file : List UInt8) :
    Except String (List CoffSymbol) :=
  if symbolCount = 0 then .ok []
  else if !coffReaderRangeOk file.length pointerToSymbolTable (symbolCount * COFF_SYMBOL_SIZE) then
    .error "COFF symbol table is out of range"
  else coffReaderParseSymbolsFrom stringTable file pointerToSymbolTable symbolCount 0 0 0

/-! ## The whole file -/

/-- `%04X`. -/
def showHex4 (n : Nat) : String :=
  let digits := (Nat.toDigits 16 n).map Char.toUpper
  String.ofList (List.replicate (4 - digits.length) '0' ++ digits)

/-- `coff_object_read` on the bytes of the file. -/
def coffObjectRead (filename : String) (file : List UInt8) : Except String CoffObject :=
  if file.length < COFF_FILE_HEADER_SIZE then
    .error s!"COFF file '{filename}' is smaller than the file header"
  else
    let machine := linkerReadU16 file 0
    let sectionCount := linkerReadU16 file 2
    let pointerToSymbolTable := linkerReadU32 file 8
    let symbolCount := linkerReadU32 file 12
    if machine ≠ COFF_MACHINE_AMD64 then
      .error (s!"Unsupported COFF machine 0x{showHex4 machine} " ++
        s!"(expected 0x{showHex4 COFF_MACHINE_AMD64})")
    else do
      let stringTable ← coffReaderParseStringTable pointerToSymbolTable symbolCount file
      let sections ← coffReaderParseSections sectionCount stringTable file
      let symbols ← coffReaderParseSymbols pointerToSymbolTable symbolCount stringTable file
      return { sections, symbols }

end Mettle.Linker
