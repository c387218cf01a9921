import Mettle.Linker.CoffReader

/-!
# Mettle — section merging and symbol resolution

The model of `linker/symbol_resolve.c`: the six merged sections, the merge loop
that appends every object section to its merged section, the loop that maps
object symbols and collects the global symbols, address assignment and the final
validation, composed by `linkResolutionBuild` in the order of the source.

The parallel arrays `section_merged_indices`, `section_merged_offsets`,
`section_merged_sizes` and `section_alignments` of an input object are one list of
rows (`SectionPlacement`), `LINKED_SECTION_INDEX_NONE` is `none`, and `size` of a
merged section is the length of its `data`. Sizes and offsets are bounded by what
fits in memory, so they are `Nat`s; allocation failure is not modelled.
-/

namespace Mettle.Linker

open Mettle.Lib

def COFF_STORAGE_CLASS_EXTERNAL : Nat := 2
def COFF_STORAGE_CLASS_STATIC : Nat := 3

/-! ## Data model -/

/-- Where a section of an object went. -/
structure LinkedSectionContribution where
  objectIndex : Nat
  sectionIndex : Nat
  mergedOffset : Nat
  size : Nat
  alignment : Nat
  deriving DecidableEq

/-- A merged section. -/
structure LinkedSection where
  kind : CoffSectionKind
  name : String
  data : List UInt8
  virtualSize : Nat
  alignment : Nat
  virtualAddress : Nat
  contributions : List LinkedSectionContribution
  deriving DecidableEq

def LinkedSection.size (merged : LinkedSection) : Nat := merged.data.length

/-- The merged sections, indexed as `LinkResolution.sections`. -/
abbrev LinkedSections := Fin 6 → LinkedSection

/-- One row of the per-section arrays of an input object. -/
structure SectionPlacement where
  mergedIndex : Option (Fin 6)
  mergedOffset : Nat
  mergedSize : Nat
  alignment : Nat
  deriving DecidableEq

/-- A symbol of an object. -/
structure LinkedObjectSymbol where
  name : Option CString
  objectIndex : Nat
  symbolIndex : Nat
  isDefined : Bool
  isExternal : Bool
  isLocal : Bool
  isAuxiliary : Bool
  sectionNumber : Int
  mergedSectionIndex : Option (Fin 6)
  mergedOffset : Nat
  virtualAddress : Nat
  deriving DecidableEq

/-- An object with its placements. -/
structure LinkedInputObject where
  path : String
  object : CoffObject
  placements : List SectionPlacement
  symbols : List LinkedObjectSymbol
  deriving DecidableEq

/-- A symbol of the program. -/
structure LinkedSymbol where
  name : CString
  isDefined : Bool
  isExternal : Bool
  definingObjectIndex : Option Nat
  definingSymbolIndex : Nat
  mergedSectionIndex : Option (Fin 6)
  mergedOffset : Nat
  virtualAddress : Nat
  deriving DecidableEq

/-- A `NULL` options pointer acts as the default of each field. -/
structure LinkResolutionOptions where
  entrySymbolName : Option CString := none
  sectionAlignment : Nat := 0
  allowUnresolvedExternals : Bool := false
  deriving DecidableEq

/-- What the linker has resolved. -/
structure LinkResolution where
  objects : List LinkedInputObject
  sections : LinkedSections
  symbols : List LinkedSymbol
  entrySymbol : Option LinkedSymbol

/-! ## Alignment and size of one object section -/

instance sectionCount : NeZero 6 := ⟨by decide⟩

/-- The merged section of a kind. -/
def linkSectionIndexFromKind : CoffSectionKind → Option (Fin 6)
  | .text => some 0
  | .rdata => some 1
  | .data => some 2
  | .bss => some 3
  | .pdata => some 4
  | .xdata => some 5
  | .unknown => none

/-- The name of a merged section. -/
def linkSectionNameFromKind : CoffSectionKind → String
  | .text => ".text"
  | .rdata => ".rdata"
  | .data => ".data"
  | .bss => ".bss"
  | .pdata => ".pdata"
  | .xdata => ".xdata"
  | .unknown => "<unknown>"

def IMAGE_SCN_ALIGN_MASK : Nat := 0x00F00000

/-- The alignment nibble: `1` stands for 1 byte and each further value doubles it, up
to `0xE` for 8192; `0` and `0xF` prescribe nothing. -/
def linkAlignmentFromCharacteristics (characteristics : Nat) : Nat :=
  match (characteristics &&& IMAGE_SCN_ALIGN_MASK) >>> 20 with
  | 1 => 1
  | 2 => 2
  | 3 => 4
  | 4 => 8
  | 5 => 16
  | 6 => 32
  | 7 => 64
  | 8 => 128
  | 9 => 256
  | 10 => 512
  | 11 => 1024
  | 12 => 2048
  | 13 => 4096
  | 14 => 8192
  | _ => 0

/-- The alignment of a section that has none. -/
def linkDefaultSectionAlignment (kind : CoffSectionKind) (fallbackAlignment : Nat) : Nat :=
  if fallbackAlignment > 1 then fallbackAlignment
  else if kind = .unknown then 1
  else 16

/-- The alignment of a section. -/
def linkSectionAlignment (section_ : CoffSection) (fallbackAlignment : Nat) : Nat :=
  let alignment := linkAlignmentFromCharacteristics section_.characteristics
  if alignment ≠ 0 then alignment
  else linkDefaultSectionAlignment section_.kind fallbackAlignment

/-- `(value + alignment - 1) & ~(alignment - 1)`; clearing the bits of a mask subtracts
the bits it shares with the number. -/
def linkerAlignUp (value alignment : Nat) : Nat :=
  if alignment = 0 then value
  else (value + alignment - 1) - ((value + alignment - 1) &&& (alignment - 1))

def definesSectionLength (section_ : CoffSection) (sectionIndex : Nat) (symbol : CoffSymbol) :
    Bool :=
  !symbol.isAuxiliary && symbol.hasAuxiliaryRecord &&
    symbol.storageClass == COFF_STORAGE_CLASS_STATIC &&
    symbol.sectionNumber == toInt16 (sectionIndex + 1) &&
    symbol.name == some section_.name && symbol.auxSectionLength != 0

/-- The loop over the symbols of a `.bss` section: the largest `value + 1`. -/
def linkBssSymbolEnd (symbols : List CoffSymbol) (sectionIndex size : Nat) : Nat :=
  symbols.foldl (fun size symbol =>
    if symbol.isAuxiliary || symbol.sectionNumber != toInt16 (sectionIndex + 1) then size
    else max size (symbol.value + 1)) size

/-- The size a section takes in the merge. -/
def linkEstimateSectionSize (object : CoffObject) (sectionIndex : Nat) : Nat :=
  match object.sections[sectionIndex]? with
  | none => 0
  | some section_ =>
    match object.symbols.find? (definesSectionLength section_ sectionIndex) with
    | some symbol => symbol.auxSectionLength
    | none =>
      let size := max section_.sizeOfRawData section_.virtualSize
      if section_.kind ≠ .bss then size
      -- `saw_symbol` never matters: a symbol that was seen already made the size positive.
      else linkBssSymbolEnd object.symbols sectionIndex size

/-! ## Merging -/

/-- The six sections before the merge. -/
def linkResolutionInitSections : LinkedSections := fun k =>
  let kind : CoffSectionKind :=
    match k with
    | 0 => .text
    | 1 => .rdata
    | 2 => .data
    | 3 => .bss
    | 4 => .pdata
    | 5 => .xdata
  { kind, name := linkSectionNameFromKind kind, data := [], virtualSize := 0, alignment := 1
    virtualAddress := 0, contributions := [] }

def linkMergeInto (fallbackAlignment objectIndex : Nat) (object : CoffObject)
    (sectionIndex : Nat) (section_ : CoffSection) (merged : LinkedSection) : LinkedSection :=
  let alignment := linkSectionAlignment section_ fallbackAlignment
  let contributionSize := linkEstimateSectionSize object sectionIndex
  let start := linkerAlignUp merged.virtualSize alignment
  let contribution : LinkedSectionContribution :=
    { objectIndex, sectionIndex, mergedOffset := start, size := contributionSize, alignment }
  let grown :=
    if section_.kind ≠ .bss then
      -- Zeros up to `start`, then the raw bytes; the new size ends at the raw bytes.
      let data := merged.data.take start ++ List.replicate (start - merged.data.length) 0 ++
        section_.rawData
      { merged with data, virtualSize := max merged.virtualSize data.length }
    else
      { merged with virtualSize := max merged.virtualSize (start + contributionSize) }
  { grown with
    alignment := max merged.alignment alignment
    contributions := merged.contributions ++ [contribution] }

/-- The inner loop over the sections of one object, from section `sectionIndex` on. -/
def linkMergeObjectSections (fallbackAlignment objectIndex : Nat) (object : CoffObject) :
    List CoffSection → Nat → LinkedSections → LinkedSections × List SectionPlacement
  | [], _, sections => (sections, [])
  | section_ :: rest, sectionIndex, sections =>
    match linkSectionIndexFromKind section_.kind with
    | none =>
      let (sections, placements) :=
        linkMergeObjectSections fallbackAlignment objectIndex object rest (sectionIndex + 1)
          sections
      (sections,
        { mergedIndex := none, mergedOffset := 0, mergedSize := 0, alignment := 0 } :: placements)
    | some k =>
      let placement : SectionPlacement :=
        { mergedIndex := some k
          mergedOffset := linkerAlignUp (sections k).virtualSize
            (linkSectionAlignment section_ fallbackAlignment)
          mergedSize := linkEstimateSectionSize object sectionIndex
          alignment := linkSectionAlignment section_ fallbackAlignment }
      let merged := linkMergeInto fallbackAlignment objectIndex object sectionIndex section_
        (sections k)
      let (sections, placements) :=
        linkMergeObjectSections fallbackAlignment objectIndex object rest (sectionIndex + 1)
          (Function.update sections k merged)
      (sections, placement :: placements)

/-- The outer loop over the objects, from object `objectIndex` on. -/
def linkMergeObjects (fallbackAlignment : Nat) :
    List CoffObject → Nat → LinkedSections → LinkedSections × List (List SectionPlacement)
  | [], _, sections => (sections, [])
  | object :: rest, objectIndex, sections =>
    let (sections, placements) :=
      linkMergeObjectSections fallbackAlignment objectIndex object object.sections 0 sections
    let (sections, placementss) :=
      linkMergeObjects fallbackAlignment rest (objectIndex + 1) sections
    (sections, placements :: placementss)

/-- `link_resolution_merge_sections`: the merged sections and each object's rows. -/
def linkResolutionMergeSections (objects : List CoffObject) (fallbackAlignment : Nat) :
    LinkedSections × List (List SectionPlacement) :=
  linkMergeObjects fallbackAlignment objects 0 linkResolutionInitSections

/-! ## Symbols -/

/-- The symbol of a name. -/
def linkResolutionFindSymbol (symbols : List LinkedSymbol) (name : CString) :
    Option LinkedSymbol :=
  symbols.find? fun symbol => symbol.name == name

def LinkedSymbol.define (globalSymbol : LinkedSymbol) (objectSymbol : LinkedObjectSymbol) :
    LinkedSymbol :=
  { globalSymbol with
    isDefined := true
    definingObjectIndex := some objectSymbol.objectIndex
    definingSymbolIndex := objectSymbol.symbolIndex
    mergedSectionIndex := objectSymbol.mergedSectionIndex
    mergedOffset := objectSymbol.mergedOffset }

def freshGlobalSymbol (name : CString) : LinkedSymbol :=
  { name, isDefined := false, isExternal := true, definingObjectIndex := none
    definingSymbolIndex := 2 ^ 32 - 1, mergedSectionIndex := some 0, mergedOffset := 0
    virtualAddress := 0 }

/-- Enters a symbol of an object into the table. -/
def linkResolutionRecordGlobalSymbol (path : String) (objectSymbol : LinkedObjectSymbol)
    (name : CString) : List LinkedSymbol → Except String (List LinkedSymbol)
  | [] =>
    let globalSymbol := freshGlobalSymbol name
    .ok [if objectSymbol.isDefined then globalSymbol.define objectSymbol else globalSymbol]
  | globalSymbol :: rest =>
    if globalSymbol.name = name then
      let globalSymbol := { globalSymbol with isExternal := true }
      if !objectSymbol.isDefined then .ok (globalSymbol :: rest)
      else if globalSymbol.isDefined then
        .error (s!"Duplicate external symbol '{showName name}' in '{path}' and object index " ++
          s!"{globalSymbol.definingObjectIndex.getD (2 ^ 64 - 1)}")
      else .ok (globalSymbol.define objectSymbol :: rest)
    else do
      let rest ← linkResolutionRecordGlobalSymbol path objectSymbol name rest
      return globalSymbol :: rest

def linkMapObjectSymbol (path : String) (objectIndex : Nat) (placements : List SectionPlacement)
    (symbolIndex : Nat) (symbol : CoffSymbol) : Except String LinkedObjectSymbol :=
  let resolved : LinkedObjectSymbol :=
    { name := symbol.name, objectIndex, symbolIndex, isDefined := false, isExternal := false
      isLocal := true, isAuxiliary := symbol.isAuxiliary, sectionNumber := symbol.sectionNumber
      mergedSectionIndex := none, mergedOffset := 0, virtualAddress := 0 }
  if symbol.isAuxiliary then .ok resolved
  else
    let isExternal := symbol.storageClass == COFF_STORAGE_CLASS_EXTERNAL
    let resolved := { resolved with isExternal := isExternal, isLocal := !isExternal }
    if symbol.sectionNumber > 0 then
      match placements[(symbol.sectionNumber - 1).toNat]? with
      | none =>
        let name := (symbol.name.map showName).getD "<unnamed>"
        .error (s!"Symbol '{name}' in '{path}' refers " ++
          s!"to section {symbol.sectionNumber} outside the section table")
      | some placement =>
        match placement.mergedIndex with
        | none => .ok resolved
        | some k =>
          .ok { resolved with
            isDefined := true
            mergedSectionIndex := some k
            mergedOffset := placement.mergedOffset + symbol.value }
    else .ok resolved

def linkRecordIfExternal (path : String) (resolved : LinkedObjectSymbol)
    (globals : List LinkedSymbol) : Except String (List LinkedSymbol) :=
  match resolved.isExternal, resolved.name with
  | true, some name => linkResolutionRecordGlobalSymbol path resolved name globals
  | _, _ => .ok globals

/-- The inner loop over the symbols of one object, from symbol `symbolIndex` on. -/
def linkBuildObjectSymbols (path : String) (objectIndex : Nat)
    (placements : List SectionPlacement) :
    List CoffSymbol → Nat → List LinkedSymbol →
      Except String (List LinkedObjectSymbol × List LinkedSymbol)
  | [], _, globals => .ok ([], globals)
  | symbol :: rest, symbolIndex, globals => do
    let resolved ← linkMapObjectSymbol path objectIndex placements symbolIndex symbol
    let globals ← linkRecordIfExternal path resolved globals
    let built ← linkBuildObjectSymbols path objectIndex placements rest (symbolIndex + 1) globals
    return (resolved :: built.1, built.2)

/-- An object as loaded and merged, before its symbols are mapped. -/
structure MergedObject where
  path : String
  object : CoffObject
  placements : List SectionPlacement

/-- The outer loop over the objects, from object `objectIndex` on. -/
def linkBuildSymbolsFrom : List MergedObject → Nat → List LinkedSymbol →
      Except String (List LinkedInputObject × List LinkedSymbol)
  | [], _, globals => .ok ([], globals)
  | input :: rest, objectIndex, globals => do
    let here ← linkBuildObjectSymbols input.path objectIndex input.placements
      input.object.symbols 0 globals
    let built ← linkBuildSymbolsFrom rest (objectIndex + 1) here.2
    return ({ path := input.path, object := input.object, placements := input.placements
              symbols := here.1 } :: built.1, built.2)

/-- The symbols of all objects. -/
def linkResolutionBuildSymbols (inputs : List MergedObject) :
    Except String (List LinkedInputObject × List LinkedSymbol) :=
  linkBuildSymbolsFrom inputs 0 []

/-! ## Addresses and validation -/

/-- The address loop over the merged sections listed, from `currentAddress` on. -/
def linkAssignSectionAddresses (sectionAlignment : Nat) :
    List (Fin 6) → Nat → LinkedSections → LinkedSections
  | [], _, sections => sections
  | k :: rest, currentAddress, sections =>
    if (sections k).virtualSize = 0 then
      linkAssignSectionAddresses sectionAlignment rest currentAddress sections
    else
      let address := linkerAlignUp currentAddress sectionAlignment
      linkAssignSectionAddresses sectionAlignment rest (address + (sections k).virtualSize)
        (Function.update sections k { sections k with virtualAddress := address })

def linkAddressOf (sections : LinkedSections) (mergedSectionIndex : Option (Fin 6))
    (isDefined : Bool) (mergedOffset virtualAddress : Nat) : Nat :=
  match isDefined, mergedSectionIndex with
  | true, some k => (sections k).virtualAddress + mergedOffset
  | _, _ => virtualAddress

def LinkedObjectSymbol.assignAddress (sections : LinkedSections) (symbol : LinkedObjectSymbol) :
    LinkedObjectSymbol :=
  { symbol with
    virtualAddress := linkAddressOf sections symbol.mergedSectionIndex symbol.isDefined
      symbol.mergedOffset symbol.virtualAddress }

def LinkedSymbol.assignAddress (sections : LinkedSections) (symbol : LinkedSymbol) :
    LinkedSymbol :=
  { symbol with
    virtualAddress := linkAddressOf sections symbol.mergedSectionIndex symbol.isDefined
      symbol.mergedOffset symbol.virtualAddress }

/-- Lays the merged sections one behind another. -/
def linkResolutionAssignVirtualAddresses (resolution : LinkResolution)
    (sectionAlignment : Nat) : LinkResolution :=
  let sections := linkAssignSectionAddresses sectionAlignment (List.finRange 6) 0
    resolution.sections
  { resolution with
    sections
    objects := resolution.objects.map fun input =>
      { input with symbols := input.symbols.map (LinkedObjectSymbol.assignAddress sections) }
    symbols := resolution.symbols.map (LinkedSymbol.assignAddress sections) }

def linkResolveEntrySymbol (resolution : LinkResolution) (options : LinkResolutionOptions) :
    Except String LinkResolution :=
  match options.entrySymbolName with
  | none => .ok resolution
  | some entryName =>
    if entryName = [] then .ok resolution
    else
      match linkResolutionFindSymbol resolution.symbols entryName with
      | some symbol =>
        if symbol.isDefined then .ok { resolution with entrySymbol := some symbol }
        else .error s!"Entry point symbol '{showName entryName}' was not resolved"
      | none => .error s!"Entry point symbol '{showName entryName}' was not resolved"

/-- Refuses externals that nothing defines. -/
def linkResolutionValidateExternals (resolution : LinkResolution)
    (options : LinkResolutionOptions) : Except String LinkResolution :=
  if options.allowUnresolvedExternals then linkResolveEntrySymbol resolution options
  else
    match resolution.symbols.find? fun symbol => symbol.isExternal && !symbol.isDefined with
    | some symbol => .error s!"Unresolved external symbol '{showName symbol.name}'"
    | none => linkResolveEntrySymbol resolution options

/-! ## The whole resolution -/

structure ObjectFile where
  path : String
  bytes : List UInt8

/-- Reads the objects in order. -/
def linkResolutionLoadObjects (files : List ObjectFile) :
    Except String (List (String × CoffObject)) :=
  files.mapM fun file => do
    let object ← coffObjectRead file.path file.bytes
    return (file.path, object)

/-- Everything `link_resolution_build` does after the objects are loaded. -/
def linkResolutionResolve (inputs : List (String × CoffObject))
    (options : LinkResolutionOptions) : Except String LinkResolution := do
  let sectionAlignment := if options.sectionAlignment > 1 then options.sectionAlignment else 16
  let (sections, placementss) :=
    linkResolutionMergeSections (inputs.map Prod.snd) sectionAlignment
  let merged := List.zipWith
    (fun input placements => { path := input.1, object := input.2, placements : MergedObject })
    inputs placementss
  let (objects, symbols) ← linkResolutionBuildSymbols merged
  let resolution := linkResolutionAssignVirtualAddresses
    { objects, sections, symbols, entrySymbol := none } sectionAlignment
  linkResolutionValidateExternals resolution options

def linkResolutionBuild (files : List ObjectFile) (options : LinkResolutionOptions) :
    Except String LinkResolution :=
  if files = [] then .error "At least one object file is required"
  else do
    let inputs ← linkResolutionLoadObjects files
    linkResolutionResolve inputs options

end Mettle.Linker
