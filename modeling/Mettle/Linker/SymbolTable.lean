import Mathlib.Data.List.Nodup
import Mettle.Lib.NameTable
import Mettle.Linker.SymbolResolve

/-!
# Mettle — the table of global symbols

`link_resolution_build_symbols` goes through the symbols of all objects in order
and keeps a table of global symbols. The abstract counterpart is the name table of
`Mettle.Lib.NameTable`: every external symbol is an occurrence of its name, and it
is a definition when the section it lies in is one of the merged kinds.
-/

namespace Mettle.Linker

open Mettle.Lib Mettle.Lib.NameTable List Option

/-! ## What resolution is about -/

def CoffSymbol.externalName (symbol : CoffSymbol) : Option CString :=
  if symbol.isAuxiliary || symbol.storageClass != COFF_STORAGE_CLASS_EXTERNAL then none
  else symbol.name

/-- The symbol lies in a section of `object` that is merged. -/
def CoffObject.placesSymbol (object : CoffObject) (symbol : CoffSymbol) : Bool :=
  decide (0 < symbol.sectionNumber) &&
    ((object.sections[(symbol.sectionNumber - 1).toNat]?).bind fun section_ =>
      linkSectionIndexFromKind section_.kind).isSome

def CoffObject.SymbolInTable (object : CoffObject) (symbol : CoffSymbol) : Prop :=
  symbol.isAuxiliary = false → 0 < symbol.sectionNumber →
    (symbol.sectionNumber - 1).toNat < object.sections.length

def SymbolsInTable (objects : List CoffObject) : Prop :=
  ∀ object ∈ objects, ∀ symbol ∈ object.symbols, object.SymbolInTable symbol

/-- `name` is an external name of the objects. -/
def Mentions (objects : List CoffObject) (name : CString) : Prop :=
  ∃ object ∈ objects, ∃ symbol ∈ object.symbols, symbol.externalName = some name

/-- Symbol `d.2` of object `d.1` defines `name`. -/
def Defines (objects : List CoffObject) (name : CString) (d : Nat × Nat) : Prop :=
  ∃ object symbol, objects[d.1]? = some object ∧ object.symbols[d.2]? = some symbol ∧
    symbol.externalName = some name ∧ object.placesSymbol symbol = true

/-- Every external name has exactly one definition, or none where imports are allowed. -/
def DefinedOnce (objects : List CoffObject) (options : LinkResolutionOptions) : Prop :=
  ∀ name, Mentions objects name → (∃! d, Defines objects name d) ∨
      (options.allowUnresolvedExternals = true ∧ ∀ d, ¬ Defines objects name d)

/-- The condition under which resolution succeeds. -/
structure Resolvable (objects : List CoffObject) (options : LinkResolutionOptions) : Prop where
  inTable : SymbolsInTable objects
  definedOnce : DefinedOnce objects options
  entry : ∀ entryName, options.entrySymbolName = some entryName → entryName ≠ [] →
    ∃ d, Defines objects entryName d

/-! ## Occurrences of names -/

/-- The occurrences in the symbols of object `o`, from symbol `s` on. -/
def objectOccurrences (o : Nat) (object : CoffObject) :
    List CoffSymbol → Nat → List (Occurrence CString (Nat × Nat))
  | [], _ => []
  | symbol :: rest, s =>
    match symbol.externalName with
    | none => objectOccurrences o object rest (s + 1)
    | some name =>
      (name, if object.placesSymbol symbol then some (o, s) else none) ::
        objectOccurrences o object rest (s + 1)

/-- The occurrences in the objects, from object `o` on. -/
def occurrences : List CoffObject → Nat → List (Occurrence CString (Nat × Nat))
  | [], _ => []
  | object :: rest, o => objectOccurrences o object object.symbols 0 ++ occurrences rest (o + 1)

theorem mem_objectOccurrences {o : Nat} {object : CoffObject} {e : Occurrence CString (Nat × Nat)} :
    ∀ (symbols : List CoffSymbol) (s : Nat), e ∈ objectOccurrences o object symbols s ↔
        ∃ i symbol, symbols[i]? = some symbol ∧ symbol.externalName = some e.1 ∧
          e.2 = if object.placesSymbol symbol then some (o, s + i) else none
  | [], s => by simp [objectOccurrences]
  | symbol :: rest, s => by
    have ih := @mem_objectOccurrences o object e rest (s + 1)
    -- occurrences further on are those of `rest`, one position later
    have hTail : (∃ i symbol', (symbol :: rest)[i + 1]? = some symbol' ∧
          symbol'.externalName = some e.1 ∧
          e.2 = if object.placesSymbol symbol' then some (o, s + (i + 1)) else none) ↔
        e ∈ objectOccurrences o object rest (s + 1) := by
      rw [ih]
      simp [Nat.add_assoc, Nat.add_comm 1]
    constructor
    · intro h
      rw [objectOccurrences] at h
      cases hName : symbol.externalName with
      | none =>
        rw [hName] at h
        obtain ⟨i, symbol', hi⟩ := hTail.mpr h
        exact ⟨i + 1, symbol', hi⟩
      | some name =>
        rw [hName] at h
        rcases mem_cons.mp h with rfl | h
        · exact ⟨0, symbol, rfl, hName, rfl⟩
        · obtain ⟨i, symbol', hi⟩ := hTail.mpr h
          exact ⟨i + 1, symbol', hi⟩
    · rintro ⟨i, symbol', hGet, hName, hDef⟩
      rw [objectOccurrences]
      cases i with
      | zero =>
        obtain rfl : symbol = symbol' := some.inj hGet
        rw [hName]
        exact mem_cons.mpr (Or.inl (Prod.ext rfl hDef))
      | succ i =>
        have hRest := hTail.mp ⟨i, symbol', hGet, hName, hDef⟩
        cases symbol.externalName with
        | none => exact hRest
        | some name => exact mem_cons_of_mem _ hRest

theorem mem_occurrences {e : Occurrence CString (Nat × Nat)} :
    ∀ (objects : List CoffObject) (o : Nat), e ∈ occurrences objects o ↔
        ∃ j object s symbol, objects[j]? = some object ∧ object.symbols[s]? = some symbol ∧
          symbol.externalName = some e.1 ∧
          e.2 = if object.placesSymbol symbol then some (o + j, s) else none
  | [], o => by simp [occurrences]
  | object :: rest, o => by
    have ih := mem_occurrences (e := e) rest (o + 1)
    rw [occurrences, mem_append, mem_objectOccurrences, ih]
    constructor
    · rintro (⟨i, symbol, hGet, hName, hDef⟩ | ⟨j, object', s, symbol, hObj, hGet, hName, hDef⟩)
      · exact ⟨0, object, i, symbol, rfl, hGet, hName, by rwa [Nat.zero_add] at hDef⟩
      · exact ⟨j + 1, object', s, symbol, hObj, hGet, hName, by
          rwa [Nat.add_assoc, Nat.add_comm 1] at hDef⟩
    · rintro ⟨j, object', s, symbol, hObj, hGet, hName, hDef⟩
      cases j with
      | zero =>
        obtain rfl : object = object' := some.inj hObj
        exact Or.inl ⟨s, symbol, hGet, hName, by rwa [Nat.zero_add]⟩
      | succ j =>
        refine Or.inr ⟨j, object', s, symbol, hObj, hGet, hName, ?_⟩
        rwa [Nat.add_assoc, Nat.add_comm 1]

variable {objects : List CoffObject} {name : CString}

theorem mentions_iff : Mentions objects name ↔ name ∈ (occurrences objects 0).map Prod.fst := by
  rw [List.mem_map]
  constructor
  · rintro ⟨object, hObj, symbol, hSym, hName⟩
    obtain ⟨j, hj⟩ := List.mem_iff_getElem?.mp hObj
    obtain ⟨s, hs⟩ := List.mem_iff_getElem?.mp hSym
    exact ⟨(name, _), (mem_occurrences objects 0).mpr ⟨j, object, s, symbol, hj, hs, hName, rfl⟩,
      rfl⟩
  · rintro ⟨e, he, rfl⟩
    obtain ⟨j, object, s, symbol, hj, hs, hName, -⟩ := (mem_occurrences objects 0).mp he
    exact ⟨object, List.mem_of_getElem? hj, symbol, List.mem_of_getElem? hs, hName⟩

theorem defines_iff {d : Nat × Nat} :
    Defines objects name d ↔ d ∈ definitions (occurrences objects 0) name := by
  rw [mem_definitions, mem_occurrences]
  constructor
  · rintro ⟨object, symbol, hObj, hSym, hName, hPlaced⟩
    refine ⟨d.1, object, d.2, symbol, hObj, hSym, hName, ?_⟩
    rw [if_pos hPlaced, Nat.zero_add]
  · rintro ⟨j, object, s, symbol, hObj, hSym, hName, hDef⟩
    by_cases hPlaced : object.placesSymbol symbol = true
    · rw [if_pos hPlaced, Nat.zero_add, some.injEq] at hDef
      rw [hDef]
      exact ⟨object, symbol, hObj, hSym, hName, hPlaced⟩
    · rw [if_neg hPlaced] at hDef
      cases hDef

theorem nodup_definitions_objectOccurrences {o : Nat} {object : CoffObject} {name : CString} :
    ∀ (symbols : List CoffSymbol) (s : Nat),
      (definitions (objectOccurrences o object symbols s) name).Nodup
  | [], _ => nodup_nil
  | symbol :: rest, s => by
    have ih := @nodup_definitions_objectOccurrences o object name rest (s + 1)
    rw [objectOccurrences]
    cases symbol.externalName with
    | none => exact ih
    | some name' =>
      show (definitions (_ :: _) name).Nodup
      rw [definitions_cons]
      by_cases hName : name' = name
      · rw [if_pos hName]
        by_cases hPlaced : object.placesSymbol symbol = true
        · rw [if_pos hPlaced]
          refine nodup_cons.mpr ⟨?_, ih⟩
          -- the rest defines names only at later symbols
          intro hMem
          obtain ⟨i, _, _, _, hDef⟩ := (mem_objectOccurrences rest (s + 1)).mp
            (mem_definitions.mp hMem)
          split at hDef
          · rw [some.injEq, Prod.mk.injEq] at hDef
            omega
          · cases hDef
        · rw [if_neg hPlaced]
          exact ih
      · rw [if_neg hName]
        exact ih

theorem definitions_append {es es' : List (Occurrence CString (Nat × Nat))} :
    definitions (es ++ es') name = definitions es name ++ definitions es' name := by
  unfold definitions
  rw [filterMap_append]

theorem nodup_definitions_occurrences : ∀ (objects : List CoffObject) (o : Nat),
      (definitions (occurrences objects o) name).Nodup
  | [], _ => nodup_nil
  | object :: rest, o => by
    rw [occurrences, definitions_append]
    refine List.Nodup.append (nodup_definitions_objectOccurrences _ _)
      (nodup_definitions_occurrences rest (o + 1)) ?_
    -- the two parts define names in different objects
    intro d hHere hRest
    obtain ⟨i, _, _, _, hDef⟩ := (mem_objectOccurrences _ _).mp (mem_definitions.mp hHere)
    obtain ⟨j, _, _, _, _, _, _, hDef'⟩ := (mem_occurrences _ _).mp (mem_definitions.mp hRest)
    split at hDef
    · split at hDef'
      · rw [some.injEq] at hDef hDef'
        rw [hDef, Prod.mk.injEq] at hDef'
        omega
      · cases hDef'
    · cases hDef

theorem length_definitions_le_one : (definitions (occurrences objects 0) name).length ≤ 1 ↔
      ∀ d d', Defines objects name d → Defines objects name d' → d = d' := by
  simp only [defines_iff]
  have hNodup := @nodup_definitions_occurrences name objects 0
  constructor
  · intro hLen d d' hd hd'
    generalize definitions (occurrences objects 0) name = defs at hLen hd hd'
    rcases defs with _ | ⟨a, _ | ⟨b, rest⟩⟩
    · cases hd
    · rw [mem_singleton] at hd hd'
      rw [hd, hd']
    · simp at hLen
  · intro hOne
    generalize definitions (occurrences objects 0) name = defs at hOne hNodup
    rcases defs with _ | ⟨a, _ | ⟨b, rest⟩⟩
    · exact Nat.zero_le _
    · exact Nat.le_refl _
    · have hab : a = b := hOne a b mem_cons_self (by simp)
      subst hab
      simp at hNodup

/-! ## The table the code builds -/

def LinkedSymbol.definition (globalSymbol : LinkedSymbol) : Option (Nat × Nat) :=
  if globalSymbol.isDefined then
    some (globalSymbol.definingObjectIndex.getD 0, globalSymbol.definingSymbolIndex)
  else none

def globalTable (globals : List LinkedSymbol) : Table CString (Nat × Nat) := fun name =>
  (linkResolutionFindSymbol globals name).map LinkedSymbol.definition

/-- One entry per name, and every entry is external. -/
structure GlobalsOk (globals : List LinkedSymbol) : Prop where
  nodup : (globals.map LinkedSymbol.name).Nodup
  external : ∀ symbol ∈ globals, symbol.isExternal = true

theorem globalTable_nil : globalTable [] = fun _ => none := rfl

theorem globalTable_cons (symbol : LinkedSymbol) (rest : List LinkedSymbol) :
    globalTable (symbol :: rest) =
      Function.update (globalTable rest) symbol.name (some symbol.definition) := by
  funext name
  unfold globalTable linkResolutionFindSymbol
  by_cases hName : name = symbol.name
  · subst hName
    simp
  · rw [Function.update_of_ne hName, find?_cons_of_neg (by simpa using Ne.symm hName)]

def LinkedObjectSymbol.occurrence (objectSymbol : LinkedObjectSymbol) (name : CString) :
    Occurrence CString (Nat × Nat) :=
  (name, if objectSymbol.isDefined then some (objectSymbol.objectIndex, objectSymbol.symbolIndex)
    else none)

/-- **Recording one symbol refines recording its occurrence.** -/
theorem recordGlobalSymbol_refines (path : String) (objectSymbol : LinkedObjectSymbol)
    (name : CString) (globals : List LinkedSymbol) :
    (linkResolutionRecordGlobalSymbol path objectSymbol name globals).toOption.map globalTable =
      record (objectSymbol.occurrence name) (globalTable globals) := by
  induction globals with
  | nil =>
    cases hDef : objectSymbol.isDefined <;>
      simp [linkResolutionRecordGlobalSymbol, hDef, Except.toOption, globalTable_cons,
        globalTable_nil, record, LinkedObjectSymbol.occurrence, LinkedSymbol.definition,
        LinkedSymbol.define, freshGlobalSymbol]
  | cons symbol rest ih =>
    by_cases hName : symbol.name = name
    · subst hName
      cases hDef : objectSymbol.isDefined <;> cases hKnown : symbol.isDefined <;>
        simp [linkResolutionRecordGlobalSymbol, hDef, hKnown, Except.toOption, globalTable_cons,
          record, LinkedObjectSymbol.occurrence, LinkedSymbol.definition, LinkedSymbol.define]
    · -- the entry is passed over: both tables keep it and record in the rest
      rw [linkResolutionRecordGlobalSymbol, if_neg hName]
      have hSame : globalTable (symbol :: rest) name = globalTable rest name := by
        rw [globalTable_cons, Function.update_of_ne (Ne.symm hName)]
      cases hRest : linkResolutionRecordGlobalSymbol path objectSymbol name rest with
      | error message =>
        rw [hRest] at ih
        have hNone : record (objectSymbol.occurrence name) (globalTable rest) = none := ih.symm
        show none = _
        symm
        rw [eq_none_iff_forall_ne_some] at hNone ⊢
        intro t hSome
        obtain ⟨hOne, -⟩ := record_eq_some_iff.mp hSome
        refine hNone _ (record_eq_some_iff.mpr ⟨?_, rfl⟩)
        show _ ∨ (globalTable rest name).join = none
        rw [← hSame]
        exact hOne
      | ok rest' =>
        rw [hRest] at ih
        obtain ⟨hOne, hTable⟩ := record_eq_some_iff.mp ih.symm
        show some (globalTable (symbol :: rest')) = _
        symm
        rw [record_eq_some_iff]
        refine ⟨?_, ?_⟩
        · show _ ∨ (globalTable (symbol :: rest) name).join = none
          rw [hSame]
          exact hOne
        · rw [globalTable_cons, hTable]
          rw [show (objectSymbol.occurrence name).1 = name from rfl, hSame, globalTable_cons,
            Function.update_comm hName]

variable {path : String} {objectSymbol : LinkedObjectSymbol}

theorem names_recordGlobalSymbol : ∀ {globals globals' : List LinkedSymbol},
      linkResolutionRecordGlobalSymbol path objectSymbol name globals = .ok globals' →
      globals'.map LinkedSymbol.name =
        if name ∈ globals.map LinkedSymbol.name then globals.map LinkedSymbol.name
        else globals.map LinkedSymbol.name ++ [name]
  | [], globals', h => by
    cases h
    cases objectSymbol.isDefined <;> rfl
  | symbol :: rest, globals', h => by
    rw [linkResolutionRecordGlobalSymbol] at h
    by_cases hName : symbol.name = name
    · rw [if_pos hName] at h
      rw [if_pos (by simp [hName])]
      dsimp only at h
      split at h
      · cases h
        rfl
      · split at h
        · cases h
        · cases h
          rfl
    · rw [if_neg hName] at h
      cases hRest : linkResolutionRecordGlobalSymbol path objectSymbol name rest with
      | error message =>
        rw [hRest] at h
        cases h
      | ok rest' =>
        rw [hRest] at h
        obtain rfl : symbol :: rest' = globals' := Except.ok.inj h
        rw [map_cons, map_cons, names_recordGlobalSymbol hRest]
        by_cases hMem : name ∈ rest.map LinkedSymbol.name
        · rw [if_pos hMem, if_pos (mem_cons_of_mem _ hMem)]
        · have hOut : name ∉ symbol.name :: rest.map LinkedSymbol.name := by
            rw [mem_cons]
            exact fun h => h.elim (Ne.symm hName) hMem
          rw [if_neg hMem, if_neg hOut, cons_append]

theorem external_recordGlobalSymbol : ∀ {globals globals' : List LinkedSymbol},
      linkResolutionRecordGlobalSymbol path objectSymbol name globals = .ok globals' →
      (∀ symbol ∈ globals, symbol.isExternal = true) →
      ∀ symbol ∈ globals', symbol.isExternal = true
  | [], globals', h, _ => by
    cases h
    intro symbol hMem
    rw [mem_singleton.mp hMem]
    cases objectSymbol.isDefined <;> rfl
  | head :: rest, globals', h, hAll => by
    rw [linkResolutionRecordGlobalSymbol] at h
    have hRestAll : ∀ symbol ∈ rest, symbol.isExternal = true :=
      fun symbol hs => hAll symbol (mem_cons_of_mem _ hs)
    by_cases hName : head.name = name
    · rw [if_pos hName] at h
      dsimp only at h
      split at h
      · cases h
        exact forall_mem_cons.mpr ⟨rfl, hRestAll⟩
      · split at h
        · cases h
        · cases h
          exact forall_mem_cons.mpr ⟨rfl, hRestAll⟩
    · rw [if_neg hName] at h
      cases hRest : linkResolutionRecordGlobalSymbol path objectSymbol name rest with
      | error message =>
        rw [hRest] at h
        cases h
      | ok rest' =>
        rw [hRest] at h
        obtain rfl : head :: rest' = globals' := Except.ok.inj h
        exact forall_mem_cons.mpr ⟨hAll head mem_cons_self,
          external_recordGlobalSymbol hRest hRestAll⟩

theorem globalsOk_recordGlobalSymbol {globals globals' : List LinkedSymbol}
    (hOk : GlobalsOk globals)
    (h : linkResolutionRecordGlobalSymbol path objectSymbol name globals = .ok globals') :
    GlobalsOk globals' := by
  refine ⟨?_, external_recordGlobalSymbol h hOk.external⟩
  rw [names_recordGlobalSymbol h]
  split
  · exact hOk.nodup
  · rename_i hMem
    rw [nodup_append]
    refine ⟨hOk.nodup, nodup_singleton _, ?_⟩
    rintro a ha b hb rfl
    rw [mem_singleton] at hb
    exact hMem (hb ▸ ha)

/-! ## The symbol loops -/

def PlacementsOf (object : CoffObject) (placements : List SectionPlacement) : Prop :=
  placements.map SectionPlacement.mergedIndex =
    object.sections.map fun section_ => linkSectionIndexFromKind section_.kind

theorem linkMapObjectSymbol_spec {o s : Nat} {object : CoffObject}
    {placements : List SectionPlacement} (hPlaced : PlacementsOf object placements)
    (symbol : CoffSymbol) :
    match linkMapObjectSymbol path o placements s symbol with
    | .ok resolved => object.SymbolInTable symbol ∧
        (if resolved.isExternal then resolved.name else none) = symbol.externalName ∧
        (symbol.isAuxiliary = false → resolved.isDefined = object.placesSymbol symbol) ∧
        resolved.objectIndex = o ∧ resolved.symbolIndex = s
    | .error _ => ¬ object.SymbolInTable symbol := by
  have hLen : placements.length = object.sections.length := by
    have h := congrArg length hPlaced
    rwa [length_map, length_map] at h
  have hRow : ∀ i : Nat, (placements[i]?).map SectionPlacement.mergedIndex =
      (object.sections[i]?).map fun section_ => linkSectionIndexFromKind section_.kind := by
    intro i
    rw [← getElem?_map, ← getElem?_map, hPlaced]
  unfold linkMapObjectSymbol
  cases hAux : symbol.isAuxiliary with
  | true =>
    refine ⟨fun h => ?_, ?_, ?_, rfl, rfl⟩
    · rw [hAux] at h
      cases h
    · simp [CoffSymbol.externalName, hAux]
    · intro h
      cases h
  | false =>
    have hExternal : (if symbol.storageClass == COFF_STORAGE_CLASS_EXTERNAL then symbol.name
        else none) = symbol.externalName := by
      cases hClass : symbol.storageClass == COFF_STORAGE_CLASS_EXTERNAL <;>
        simp [CoffSymbol.externalName, hAux, bne, hClass]
    simp only [Bool.false_eq_true, if_false]
    by_cases hPos : symbol.sectionNumber > 0
    · rw [if_pos hPos]
      have hRowAt := hRow (symbol.sectionNumber - 1).toNat
      cases hGet : placements[(symbol.sectionNumber - 1).toNat]? with
      | none =>
        intro hIn
        have hLt := hIn hAux hPos
        rw [getElem?_eq_none_iff] at hGet
        omega
      | some placement =>
        have hLt := (List.getElem_of_getElem? hGet).1
        have hIn : object.SymbolInTable symbol := fun _ _ => by omega
        have hIndex : ((object.sections[(symbol.sectionNumber - 1).toNat]?).bind fun section_ =>
            linkSectionIndexFromKind section_.kind) = placement.mergedIndex := by
          rw [hGet] at hRowAt
          cases hSec : object.sections[(symbol.sectionNumber - 1).toNat]? with
          | none =>
            rw [hSec] at hRowAt
            cases hRowAt
          | some section_ =>
            rw [hSec] at hRowAt
            exact (some.inj hRowAt).symm
        have hPlaces : object.placesSymbol symbol = placement.mergedIndex.isSome := by
          rw [CoffObject.placesSymbol, hIndex, decide_eq_true hPos, Bool.true_and]
        dsimp only
        cases hMerged : placement.mergedIndex with
        | none =>
          rw [hMerged] at hPlaces
          exact ⟨hIn, hExternal, fun _ => hPlaces.symm, rfl, rfl⟩
        | some k =>
          rw [hMerged] at hPlaces
          exact ⟨hIn, hExternal, fun _ => hPlaces.symm, rfl, rfl⟩
    · rw [if_neg hPos]
      refine ⟨fun _ h => absurd h hPos, hExternal, fun _ => ?_, rfl, rfl⟩
      rw [CoffObject.placesSymbol, decide_eq_false hPos, Bool.false_and]

/-- A run of the symbol loops against the abstract recording: it succeeds with the
recorded table when the symbols are `inTable`, and fails otherwise or on a clash. -/
def BuildRefines {α : Type} (inTable : Prop) (table : Option (Table CString (Nat × Nat)))
    (result : Except String (α × List LinkedSymbol)) : Prop :=
  match result with
  | .ok (_, globals) => inTable ∧ table = some (globalTable globals) ∧ GlobalsOk globals
  | .error _ => inTable → table = none

theorem buildObjectSymbols_refines {path : String} {o : Nat} {object : CoffObject}
    {placements : List SectionPlacement} (hPlaced : PlacementsOf object placements) :
    ∀ (symbols : List CoffSymbol) (s : Nat) (globals : List LinkedSymbol), GlobalsOk globals →
      BuildRefines (∀ symbol ∈ symbols, object.SymbolInTable symbol)
        (recordAll (objectOccurrences o object symbols s) (globalTable globals))
        (linkBuildObjectSymbols path o placements symbols s globals)
  | [], s, globals, hOk => ⟨by simp, rfl, hOk⟩
  | symbol :: rest, s, globals, hOk => by
    have hMap := @linkMapObjectSymbol_spec path o s object placements hPlaced symbol
    rw [linkBuildObjectSymbols]
    cases hResolved : linkMapObjectSymbol path o placements s symbol with
    | error message =>
      rw [hResolved] at hMap
      intro hAll
      exact absurd (hAll symbol mem_cons_self) hMap
    | ok resolved =>
      rw [hResolved] at hMap
      obtain ⟨hIn, hName, hDefined, hObject, hSymbol⟩ := hMap
      -- the rest of the loop, from whichever table the first symbol leaves
      have hNext : ∀ globals₁ : List LinkedSymbol, GlobalsOk globals₁ →
          BuildRefines (∀ symbol' ∈ symbol :: rest, object.SymbolInTable symbol')
            (recordAll (objectOccurrences o object rest (s + 1)) (globalTable globals₁))
            (linkBuildObjectSymbols path o placements rest (s + 1) globals₁ >>= fun r =>
              pure (resolved :: r.1, r.2)) := by
        intro globals₁ hOk₁
        have ih := @buildObjectSymbols_refines path o object placements hPlaced rest (s + 1)
          globals₁ hOk₁
        cases hRun : linkBuildObjectSymbols path o placements rest (s + 1) globals₁ with
        | error message =>
          rw [hRun] at ih
          intro hAll
          exact ih fun symbol' h => hAll symbol' (mem_cons_of_mem _ h)
        | ok r =>
          rw [hRun] at ih
          exact ⟨forall_mem_cons.mpr ⟨hIn, ih.1⟩, ih.2⟩
      rw [objectOccurrences]
      cases hExternal : symbol.externalName with
      | none =>
        rw [hExternal] at hName
        have hSkip : linkRecordIfExternal path resolved globals = .ok globals := by
          unfold linkRecordIfExternal
          cases hExt : resolved.isExternal with
          | false => rfl
          | true =>
            rw [hExt, if_pos rfl] at hName
            rw [hName]
        show BuildRefines _ _ (Except.bind (linkRecordIfExternal path resolved globals) _)
        rw [hSkip]
        exact hNext globals hOk
      | some name =>
        rw [hExternal] at hName
        have hExt : resolved.isExternal = true := by
          by_contra hNot
          rw [if_neg hNot] at hName
          cases hName
        rw [if_pos hExt] at hName
        have hNotAux : symbol.isAuxiliary = false := by
          cases hAux : symbol.isAuxiliary with
          | false => rfl
          | true => simp [CoffSymbol.externalName, hAux] at hExternal
        have hOcc : resolved.occurrence name =
            (name, if object.placesSymbol symbol then some (o, s) else none) := by
          rw [LinkedObjectSymbol.occurrence, hDefined hNotAux, hObject, hSymbol]
        have hStep := recordGlobalSymbol_refines path resolved name globals
        rw [hOcc] at hStep
        have hTake : linkRecordIfExternal path resolved globals =
            linkResolutionRecordGlobalSymbol path resolved name globals := by
          rw [linkRecordIfExternal, hExt, hName]
        show BuildRefines _ ((record _ _).bind _)
          (Except.bind (linkRecordIfExternal path resolved globals) _)
        rw [hTake, ← hStep]
        cases hRecord : linkResolutionRecordGlobalSymbol path resolved name globals with
        | error message =>
          intro _
          rfl
        | ok globals₁ =>
          exact hNext globals₁ (globalsOk_recordGlobalSymbol hOk hRecord)

/-- **The symbol loops refine recording all occurrences.** -/
theorem buildSymbols_refines :
    ∀ (inputs : List MergedObject) (o : Nat) (globals : List LinkedSymbol),
      (∀ input ∈ inputs, PlacementsOf input.object input.placements) → GlobalsOk globals →
      BuildRefines (SymbolsInTable (inputs.map MergedObject.object))
        (recordAll (occurrences (inputs.map MergedObject.object) o) (globalTable globals))
        (linkBuildSymbolsFrom inputs o globals)
  | [], o, globals, _, hOk => ⟨by simp [SymbolsInTable], rfl, hOk⟩
  | input :: rest, o, globals, hPlaced, hOk => by
    have hHere := @buildObjectSymbols_refines input.path o input.object input.placements
      (hPlaced input mem_cons_self) input.object.symbols 0 globals hOk
    rw [linkBuildSymbolsFrom, map_cons, occurrences, recordAll_append]
    cases hRun : linkBuildObjectSymbols input.path o input.placements input.object.symbols 0
        globals with
    | error message =>
      rw [hRun] at hHere
      intro hAll
      rw [hHere (hAll _ mem_cons_self)]
      rfl
    | ok r =>
      rw [hRun] at hHere
      obtain ⟨hIn, hTable, hOk₁⟩ := hHere
      rw [hTable]
      have ih := buildSymbols_refines rest (o + 1) r.2
        (fun input h => hPlaced input (mem_cons_of_mem _ h)) hOk₁
      show BuildRefines _ (recordAll _ (globalTable r.2))
        (Except.bind (linkBuildSymbolsFrom rest (o + 1) r.2) _)
      cases hRest : linkBuildSymbolsFrom rest (o + 1) r.2 with
      | error message =>
        rw [hRest] at ih
        intro hAll
        exact ih fun object h => hAll object (mem_cons_of_mem _ h)
      | ok r' =>
        rw [hRest] at ih
        exact ⟨forall_mem_cons.mpr ⟨hIn, ih.1⟩, ih.2⟩

end Mettle.Linker
