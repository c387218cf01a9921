import Mathlib.Logic.Equiv.Fin.Basic
import Mettle.Linker.SymbolTable

/-!
# Mettle — symbol resolution is exact and order independent

The table the symbol loops build is the abstract name table of all occurrences, and
that one does not depend on the order of the occurrences. Together with the final
validation this says when `link_resolution_build` succeeds and what it resolves a
name to.
-/

namespace Mettle.Linker

open Mettle.Lib Mettle.Lib.NameTable List Option

/-! ## Placements of a merge -/

theorem placementsOf_linkMergeObjectSections (fallbackAlignment o : Nat) (object : CoffObject) :
    ∀ (rest : List CoffSection) (i : Nat) (sections : LinkedSections),
      (linkMergeObjectSections fallbackAlignment o object rest i sections).2.map
          SectionPlacement.mergedIndex =
        rest.map fun section_ => linkSectionIndexFromKind section_.kind
  | [], _, _ => rfl
  | head :: rest, i, sections => by
    rw [linkMergeObjectSections, map_cons]
    cases hKind : linkSectionIndexFromKind head.kind with
    | none =>
      exact congrArg _ (placementsOf_linkMergeObjectSections fallbackAlignment o object rest
        (i + 1) sections)
    | some k =>
      exact congrArg _ (placementsOf_linkMergeObjectSections fallbackAlignment o object rest
        (i + 1) _)

theorem placementsOf_linkMergeObjects (fallbackAlignment : Nat) :
    ∀ (objects : List CoffObject) (o : Nat) (sections : LinkedSections),
      List.Forall₂ PlacementsOf objects (linkMergeObjects fallbackAlignment objects o sections).2
  | [], _, _ => List.Forall₂.nil
  | object :: rest, o, sections =>
    List.Forall₂.cons (placementsOf_linkMergeObjectSections fallbackAlignment o object _ 0 sections)
      (placementsOf_linkMergeObjects fallbackAlignment rest (o + 1) _)

theorem zipWith_mergedObject :
    ∀ {inputs : List (String × CoffObject)} {placementss : List (List SectionPlacement)},
      List.Forall₂ PlacementsOf (inputs.map Prod.snd) placementss →
      (∀ input ∈ List.zipWith (fun (input : String × CoffObject) placements =>
          MergedObject.mk input.1 input.2 placements) inputs placementss,
        PlacementsOf input.object input.placements) ∧
      (List.zipWith (fun (input : String × CoffObject) placements =>
          MergedObject.mk input.1 input.2 placements) inputs placementss).map
        MergedObject.object = inputs.map Prod.snd
  | [], _, h => by
    cases h
    exact ⟨by simp, rfl⟩
  | input :: rest, _, h => by
    cases h with
    | cons hHead hRest =>
      obtain ⟨hAll, hMap⟩ := zipWith_mergedObject hRest
      refine ⟨forall_mem_cons.mpr ⟨hHead, hAll⟩, ?_⟩
      rw [zipWith_cons_cons, map_cons, map_cons, hMap]

/-! ## Validation -/

def LinkResolution.resolvesTo (resolution : LinkResolution) (name : CString) : Option (Nat × Nat) :=
  (globalTable resolution.symbols name).join

variable {f : LinkedSymbol → LinkedSymbol}

theorem globalTable_map (hName : ∀ g, (f g).name = g.name)
    (hDef : ∀ g, (f g).definition = g.definition) :
    ∀ symbols : List LinkedSymbol, globalTable (symbols.map f) = globalTable symbols
  | [] => rfl
  | symbol :: rest => by
    rw [map_cons, globalTable_cons, globalTable_cons, hName, hDef, globalTable_map hName hDef rest]

variable {symbols : List LinkedSymbol}

theorem globalsOk_map (hName : ∀ g, (f g).name = g.name)
    (hExternal : ∀ g, (f g).isExternal = g.isExternal) (hOk : GlobalsOk symbols) :
    GlobalsOk (symbols.map f) := by
  refine ⟨?_, ?_⟩
  · have hNames : (symbols.map f).map LinkedSymbol.name = symbols.map LinkedSymbol.name := by
      rw [List.map_map]
      exact map_congr_left fun g _ => hName g
    rw [hNames]
    exact hOk.nodup
  · intro symbol hMem
    obtain ⟨g, hg, rfl⟩ := mem_map.mp hMem
    rw [hExternal]
    exact hOk.external g hg

theorem globalTable_of_mem (hOk : GlobalsOk symbols) {symbol : LinkedSymbol}
    (hMem : symbol ∈ symbols) :
    globalTable symbols symbol.name = some symbol.definition := by
  obtain ⟨hNodup, -⟩ := hOk
  induction symbols with
  | nil => cases hMem
  | cons head rest ih =>
    rw [map_cons, nodup_cons] at hNodup
    rw [globalTable_cons]
    rcases mem_cons.mp hMem with rfl | hRest
    · rw [Function.update_self]
    · have hNe : symbol.name ≠ head.name := by
        intro hEq
        exact hNodup.1 (hEq ▸ mem_map_of_mem hRest)
      rw [Function.update_of_ne hNe]
      exact ih hRest hNodup.2

theorem find_undefined_eq_none_iff (hOk : GlobalsOk symbols) :
    (symbols.find? fun symbol => symbol.isExternal && !symbol.isDefined) = none ↔
      ∀ name, globalTable symbols name ≠ some none := by
  rw [find?_eq_none]
  constructor
  · intro hAll name hNone
    unfold globalTable at hNone
    cases hFind : linkResolutionFindSymbol symbols name with
    | none =>
      rw [hFind] at hNone
      cases hNone
    | some symbol =>
      rw [hFind, map_some, some.injEq] at hNone
      have hMem : symbol ∈ symbols := mem_of_find?_eq_some hFind
      apply hAll symbol hMem
      rw [hOk.external symbol hMem, Bool.true_and]
      cases hDef : symbol.isDefined with
      | false => rfl
      | true => simp [LinkedSymbol.definition, hDef] at hNone
  · intro hAll symbol hMem hUndef
    rw [hOk.external symbol hMem, Bool.true_and, Bool.not_eq_true'] at hUndef
    apply hAll symbol.name
    rw [globalTable_of_mem hOk hMem, LinkedSymbol.definition, hUndef]
    rfl

variable {name : CString}

theorem find_defined_iff :
    (∃ symbol, linkResolutionFindSymbol symbols name = some symbol ∧ symbol.isDefined = true) ↔
      ∃ d, (globalTable symbols name).join = some d := by
  unfold globalTable
  cases hFind : linkResolutionFindSymbol symbols name with
  | none => simp
  | some symbol => cases hDef : symbol.isDefined <;> simp [LinkedSymbol.definition, hDef]

theorem resolveEntrySymbol_spec (resolution : LinkResolution) (options : LinkResolutionOptions) :
    ((∃ r, linkResolveEntrySymbol resolution options = .ok r) ↔
      ∀ entryName, options.entrySymbolName = some entryName → entryName ≠ [] →
        ∃ d, (globalTable resolution.symbols entryName).join = some d) ∧
    ∀ r, linkResolveEntrySymbol resolution options = .ok r → r.symbols = resolution.symbols := by
  unfold linkResolveEntrySymbol
  cases hName : options.entrySymbolName with
  | none => simp
  | some entryName =>
    by_cases hNil : entryName = []
    · simp [hNil]
    · have hAsked : (∀ entryName', some entryName = some entryName' → entryName' ≠ [] →
          ∃ d, (globalTable resolution.symbols entryName').join = some d) ↔
          ∃ d, (globalTable resolution.symbols entryName).join = some d := by
        constructor
        · intro h
          exact h entryName rfl hNil
        · rintro h entryName' hEq -
          rwa [← some.inj hEq]
      rw [hAsked, ← find_defined_iff]
      dsimp only
      rw [if_neg hNil]
      cases hFind : linkResolutionFindSymbol resolution.symbols entryName with
      | none => simp
      | some symbol =>
        cases hDef : symbol.isDefined with
        | false => simp [hDef]
        | true =>
          refine ⟨by simp [hDef], ?_⟩
          intro r hr
          simp only [hDef, if_true, Except.ok.injEq] at hr
          rw [← hr]

theorem validateExternals_spec (resolution : LinkResolution) (options : LinkResolutionOptions)
    (hOk : GlobalsOk resolution.symbols) :
    ((∃ r, linkResolutionValidateExternals resolution options = .ok r) ↔
      (options.allowUnresolvedExternals = true ∨
        ∀ name, globalTable resolution.symbols name ≠ some none) ∧
      ∀ entryName, options.entrySymbolName = some entryName → entryName ≠ [] →
        ∃ d, (globalTable resolution.symbols entryName).join = some d) ∧
    ∀ r, linkResolutionValidateExternals resolution options = .ok r →
      r.symbols = resolution.symbols := by
  obtain ⟨hIff, hSame⟩ := resolveEntrySymbol_spec resolution options
  rw [← hIff, ← find_undefined_eq_none_iff hOk]
  unfold linkResolutionValidateExternals
  cases hAllow : options.allowUnresolvedExternals with
  | true =>
    exact ⟨by simp, hSame⟩
  | false =>
    cases hFind : resolution.symbols.find? fun symbol => symbol.isExternal && !symbol.isDefined with
    | some symbol => simp
    | none => exact ⟨by simp, hSame⟩

/-! ## Resolution of loaded objects -/

variable {objects : List CoffObject}

variable {options : LinkResolutionOptions}

theorem definedOnce_iff : DefinedOnce objects options ↔
      (∀ name, (definitions (occurrences objects 0) name).length ≤ 1) ∧
        (options.allowUnresolvedExternals = true ∨
          ∀ name, recorded (fun _ => none) (occurrences objects 0) name ≠ some none) := by
  have hEmpty : ∀ name, allDefinitions (fun _ => none) (occurrences objects 0) name =
      definitions (occurrences objects 0) name := fun _ => rfl
  -- a name is undefined in the table when it is mentioned and never defined
  have hUndef : ∀ name, recorded (fun _ => none) (occurrences objects 0) name = some none ↔
      Mentions objects name ∧ ∀ d, ¬ Defines objects name d := by
    intro name
    rw [recorded, mentions_iff, hEmpty]
    by_cases hM : name ∈ (occurrences objects 0).map Prod.fst
    · rw [if_pos hM, some.injEq, head?_eq_none_iff, eq_nil_iff_forall_not_mem]
      simp [hM, defines_iff]
    · simp [hM]
  constructor
  · intro hOnce
    constructor
    · intro name
      rw [length_definitions_le_one]
      intro d d' hd hd'
      obtain ⟨object, symbol, hObj, hSym, hName, -⟩ := id hd
      have hM : Mentions objects name :=
        ⟨object, mem_of_getElem? hObj, symbol, mem_of_getElem? hSym, hName⟩
      rcases hOnce name hM with ⟨d₀, -, hUnique⟩ | ⟨-, hNone⟩
      · rw [hUnique d hd, hUnique d' hd']
      · exact absurd hd (hNone d)
    · by_contra hContra
      rw [not_or] at hContra
      obtain ⟨hAllow, hSome⟩ := hContra
      rw [not_forall] at hSome
      obtain ⟨name, hName⟩ := hSome
      obtain ⟨hM, hNone⟩ := (hUndef name).mp (not_not.mp hName)
      rcases hOnce name hM with ⟨d₀, hd₀, -⟩ | ⟨hAllow', -⟩
      · exact hNone d₀ hd₀
      · exact hAllow hAllow'
  · rintro ⟨hOne, hAll⟩ name hM
    by_cases hDef : ∃ d, Defines objects name d
    · obtain ⟨d, hd⟩ := hDef
      exact Or.inl ⟨d, hd, fun d' hd' => length_definitions_le_one.mp (hOne name) d' d hd' hd⟩
    · rw [not_exists] at hDef
      rcases hAll with hAllow | hAll
      · exact Or.inr ⟨hAllow, hDef⟩
      · exact absurd ((hUndef name).mpr ⟨hM, hDef⟩) (hAll name)

variable {d : Nat × Nat}

theorem join_recorded_iff (hOne : ∀ name, (definitions (occurrences objects 0) name).length ≤ 1) :
    (recorded (fun _ => none) (occurrences objects 0) name).join = some d ↔
      Defines objects name d := by
  have hEmpty : allDefinitions (fun _ => none) (occurrences objects 0) name =
      definitions (occurrences objects 0) name := rfl
  rw [defines_iff, recorded, hEmpty]
  by_cases hM : name ∈ (occurrences objects 0).map Prod.fst
  · rw [if_pos hM, join_some]
    have hLen := hOne name
    generalize definitions (occurrences objects 0) name = defs at hLen
    rcases defs with _ | ⟨a, _ | ⟨b, rest⟩⟩
    · simp
    · simp [eq_comm]
    · simp at hLen
  · rw [if_neg hM, definitions_eq_nil hM]
    simp

theorem linkResolutionResolve_spec (inputs : List (String × CoffObject))
    (options : LinkResolutionOptions) :
    ((∃ r, linkResolutionResolve inputs options = .ok r) ↔
      Resolvable (inputs.map Prod.snd) options) ∧
    ∀ r, linkResolutionResolve inputs options = .ok r →
      ∀ name d, r.resolvesTo name = some d ↔ Defines (inputs.map Prod.snd) name d := by
  set objects := inputs.map Prod.snd with hObjects
  set alignment := if options.sectionAlignment > 1 then options.sectionAlignment else 16
  set merge := linkResolutionMergeSections objects alignment with hMerge
  set merged := zipWith (fun (input : String × CoffObject) placements =>
    MergedObject.mk input.1 input.2 placements) inputs merge.2 with hMerged
  obtain ⟨hPlaced, hMap⟩ := @zipWith_mergedObject inputs _
    (placementsOf_linkMergeObjects alignment objects 0 linkResolutionInitSections)
  have hBuild := buildSymbols_refines merged 0 [] hPlaced ⟨nodup_nil, by simp⟩
  rw [show merged.map MergedObject.object = objects from hMap, globalTable_nil] at hBuild
  have hRun : linkResolutionResolve inputs options =
      (linkBuildSymbolsFrom merged 0 []).bind fun built =>
        linkResolutionValidateExternals (linkResolutionAssignVirtualAddresses
          { objects := built.1, sections := merge.1, symbols := built.2, entrySymbol := none }
          alignment) options := rfl
  rw [hRun]
  cases hSymbols : linkBuildSymbolsFrom merged 0 [] with
  | error message =>
    rw [hSymbols] at hBuild
    refine ⟨⟨?_, ?_⟩, ?_⟩
    · rintro ⟨r, hr⟩
      cases hr
    · intro hRes
      -- the symbols are in the table and defined once, so recording cannot have failed
      have hNone := hBuild hRes.inTable
      have hSome : recordAll (occurrences objects 0) (fun _ => none) = some _ :=
        recordAll_eq_some_iff.mpr ⟨(definedOnce_iff.mp hRes.definedOnce).1, rfl⟩
      rw [hNone] at hSome
      cases hSome
    · intro r hr
      cases hr
  | ok built =>
    rw [hSymbols] at hBuild
    obtain ⟨hIn, hTable, hOk⟩ := hBuild
    obtain ⟨hOne, hRecorded⟩ := recordAll_eq_some_iff.mp hTable
    set resolution := linkResolutionAssignVirtualAddresses
      { objects := built.1, sections := merge.1, symbols := built.2, entrySymbol := none }
      alignment with hResolution
    have hSame : globalTable resolution.symbols =
        recorded (fun _ => none) (occurrences objects 0) := by
      rw [← hRecorded]
      exact globalTable_map (f := LinkedSymbol.assignAddress _) (fun _ => rfl) (fun _ => rfl)
        built.2
    have hOk' : GlobalsOk resolution.symbols :=
      globalsOk_map (f := LinkedSymbol.assignAddress _) (fun _ => rfl) (fun _ => rfl) hOk
    obtain ⟨hIff, hKeep⟩ := validateExternals_spec resolution options hOk'
    refine ⟨?_, ?_⟩
    · show (∃ r, linkResolutionValidateExternals resolution options = .ok r) ↔ _
      rw [hIff, hSame]
      constructor
      · rintro ⟨hAll, hEntry⟩
        refine ⟨hIn, definedOnce_iff.mpr ⟨hOne, hAll⟩, ?_⟩
        intro entryName hAsked hNonempty
        obtain ⟨d, hd⟩ := hEntry entryName hAsked hNonempty
        exact ⟨d, (join_recorded_iff hOne).mp hd⟩
      · rintro ⟨-, hOnce, hEntry⟩
        refine ⟨(definedOnce_iff.mp hOnce).2, ?_⟩
        intro entryName hAsked hNonempty
        obtain ⟨d, hd⟩ := hEntry entryName hAsked hNonempty
        exact ⟨d, (join_recorded_iff hOne).mpr hd⟩
    · intro r hr name d
      have hr' : linkResolutionValidateExternals resolution options = .ok r := hr
      rw [LinkResolution.resolvesTo, hKeep r hr', hSame]
      exact join_recorded_iff hOne

/-! ## Files and their permutations -/

def ReadsAs (files : List ObjectFile) (objects : List CoffObject) : Prop :=
  files.map (fun file => coffObjectRead file.path file.bytes) = objects.map .ok

theorem loadObjects_ok_iff : ∀ {files : List ObjectFile} {objects : List CoffObject},
      (∃ inputs, linkResolutionLoadObjects files = .ok inputs ∧ inputs.map Prod.snd = objects) ↔
        ReadsAs files objects
  | [], objects => by
    constructor
    · rintro ⟨inputs, hLoad, rfl⟩
      obtain rfl : [] = inputs := Except.ok.inj hLoad
      rfl
    · intro h
      have hNil : objects = [] := by simpa [ReadsAs] using h.symm
      exact ⟨[], rfl, hNil.symm⟩
  | file :: rest, objects => by
    have hCons : linkResolutionLoadObjects (file :: rest) =
        (coffObjectRead file.path file.bytes).bind fun object =>
          (linkResolutionLoadObjects rest).bind fun inputs =>
            .ok ((file.path, object) :: inputs) := by
      unfold linkResolutionLoadObjects
      rw [mapM_cons]
      cases coffObjectRead file.path file.bytes <;> rfl
    constructor
    · rintro ⟨inputs, hLoad, rfl⟩
      rw [hCons] at hLoad
      cases hRead : coffObjectRead file.path file.bytes with
      | error message =>
        rw [hRead] at hLoad
        cases hLoad
      | ok object =>
        rw [hRead] at hLoad
        cases hRest : linkResolutionLoadObjects rest with
        | error message =>
          rw [hRest] at hLoad
          cases hLoad
        | ok inputs' =>
          rw [hRest] at hLoad
          obtain rfl : (file.path, object) :: inputs' = inputs := Except.ok.inj hLoad
          have ih := loadObjects_ok_iff.mp ⟨inputs', hRest, rfl⟩
          rw [ReadsAs, map_cons, hRead, ih]
          rfl
    · intro h
      cases objects with
      | nil => simp [ReadsAs] at h
      | cons object objects =>
        obtain ⟨hHead, hRest⟩ := cons.inj h
        have hRead : coffObjectRead file.path file.bytes = .ok object := hHead
        obtain ⟨inputs, hLoad, rfl⟩ := loadObjects_ok_iff.mpr hRest
        refine ⟨(file.path, object) :: inputs, ?_, rfl⟩
        rw [hCons, hRead, hLoad]
        rfl

variable {files : List ObjectFile} {objects' : List CoffObject}

theorem ReadsAs.unique (h : ReadsAs files objects)
    (h' : ReadsAs files objects') : objects = objects' :=
  map_injective_iff.mpr (fun _ _ => Except.ok.inj) (h.symm.trans h')

theorem linkResolutionBuild_spec (files : List ObjectFile) (options : LinkResolutionOptions) :
    ((∃ r, linkResolutionBuild files options = .ok r) ↔
      files ≠ [] ∧ ∃ objects, ReadsAs files objects ∧ Resolvable objects options) ∧
    ∀ r objects, linkResolutionBuild files options = .ok r → ReadsAs files objects →
      ∀ name d, r.resolvesTo name = some d ↔ Defines objects name d := by
  unfold linkResolutionBuild
  by_cases hNil : files = []
  · simp [hNil]
  · rw [if_neg hNil]
    cases hLoad : linkResolutionLoadObjects files with
    | error message =>
      refine ⟨⟨?_, ?_⟩, ?_⟩
      · rintro ⟨r, hr⟩
        cases hr
      · rintro ⟨-, objects, hReads, -⟩
        obtain ⟨inputs, hOk, -⟩ := loadObjects_ok_iff.mpr hReads
        rw [hLoad] at hOk
        cases hOk
      · intro r objects hr
        cases hr
    | ok inputs =>
      have hReads : ReadsAs files (inputs.map Prod.snd) :=
        loadObjects_ok_iff.mp ⟨inputs, hLoad, rfl⟩
      obtain ⟨hIff, hResolves⟩ := linkResolutionResolve_spec inputs options
      refine ⟨?_, ?_⟩
      · show (∃ r, linkResolutionResolve inputs options = .ok r) ↔ _
        rw [hIff]
        constructor
        · intro hRes
          exact ⟨hNil, _, hReads, hRes⟩
        · rintro ⟨-, objects, hReads', hRes⟩
          rwa [hReads.unique hReads']
      · intro r objects hr hReads' name d
        rw [← hReads.unique hReads']
        exact hResolves r hr name d

/-- `l` in the order given by `σ`. -/
def permuteList {α : Type*} (l : List α) (σ : Equiv.Perm (Fin l.length)) : List α :=
  List.ofFn fun i => l.get (σ i)

theorem getElem?_permuteList {α : Type*} (l : List α) (σ : Equiv.Perm (Fin l.length)) (j : Nat) :
    (permuteList l σ)[j]? = if h : j < l.length then some (l.get (σ ⟨j, h⟩)) else none := by
  rw [permuteList, List.getElem?_ofFn]

section Permutation

variable {n : Nat} (hLen : objects.length = n) (σ : Equiv.Perm (Fin n))
  (hGet : ∀ (j : Nat) (object : CoffObject), objects'[j]? = some object ↔
    ∃ i : Fin n, (i : Nat) = j ∧ objects[(σ i : Nat)]? = some object)
include hGet

theorem defines_permuted {j s : Nat} :
    Defines objects' name (j, s) ↔ ∃ i : Fin n, (i : Nat) = j ∧ Defines objects name (σ i, s) := by
  constructor
  · rintro ⟨object, symbol, hObj, hSym, hRest⟩
    obtain ⟨i, hi, hObj'⟩ := (hGet j object).mp hObj
    exact ⟨i, hi, object, symbol, hObj', hSym, hRest⟩
  · rintro ⟨i, hi, object, symbol, hObj, hSym, hRest⟩
    exact ⟨object, symbol, (hGet j object).mpr ⟨i, hi, hObj⟩, hSym, hRest⟩

include hLen

theorem mem_permuted {object : CoffObject} : object ∈ objects' ↔ object ∈ objects := by
  rw [mem_iff_getElem?, mem_iff_getElem?]
  constructor
  · rintro ⟨j, hj⟩
    obtain ⟨i, -, hi⟩ := (hGet j object).mp hj
    exact ⟨σ i, hi⟩
  · rintro ⟨j, hj⟩
    have hLt : j < n := by
      rw [← hLen]
      exact (List.getElem_of_getElem? hj).1
    refine ⟨σ.symm ⟨j, hLt⟩, (hGet _ object).mpr ⟨σ.symm ⟨j, hLt⟩, rfl, ?_⟩⟩
    rw [Equiv.apply_symm_apply]
    exact hj

theorem defines_of_permuted (hd : Defines objects name d) :
    ∃ i : Fin n, (σ i : Nat) = d.1 ∧ Defines objects' name (i, d.2) := by
  obtain ⟨object, symbol, hObj, hRest⟩ := id hd
  have hLt : d.1 < n := by
    rw [← hLen]
    exact (List.getElem_of_getElem? hObj).1
  refine ⟨σ.symm ⟨d.1, hLt⟩, by rw [Equiv.apply_symm_apply], ?_⟩
  refine (defines_permuted σ hGet).mpr ⟨_, rfl, ?_⟩
  rw [Equiv.apply_symm_apply]
  exact hd

theorem exists_defines_permuted : (∃ d, Defines objects' name d) ↔ ∃ d, Defines objects name d := by
  constructor
  · rintro ⟨⟨j, s⟩, hd⟩
    obtain ⟨i, -, hi⟩ := (defines_permuted σ hGet).mp hd
    exact ⟨_, hi⟩
  · rintro ⟨d, hd⟩
    obtain ⟨i, -, hi⟩ := defines_of_permuted hLen σ hGet hd
    exact ⟨_, hi⟩

theorem existsUnique_defines_permuted :
    (∃! d, Defines objects' name d) ↔ ∃! d, Defines objects name d := by
  constructor
  · rintro ⟨⟨j, s⟩, hd, hUnique⟩
    obtain ⟨i, rfl, hi⟩ := (defines_permuted σ hGet).mp hd
    refine ⟨(σ i, s), hi, ?_⟩
    rintro ⟨o, t⟩ hot
    obtain ⟨i', hi', hd'⟩ := defines_of_permuted hLen σ hGet hot
    have hEq := hUnique _ hd'
    rw [Prod.mk.injEq] at hEq
    have hII : i' = i := Fin.ext hEq.1
    rw [← hII, hi', hEq.2.symm]
  · rintro ⟨d, hd, hUnique⟩
    obtain ⟨i, hi, hd'⟩ := defines_of_permuted hLen σ hGet hd
    refine ⟨(i, d.2), hd', ?_⟩
    rintro ⟨j, s⟩ hjs
    obtain ⟨i', rfl, hi'⟩ := (defines_permuted σ hGet).mp hjs
    have hEq := hUnique _ hi'
    have hσ : (σ i' : Nat) = σ i := by rw [hi, ← hEq]
    have hII : i' = i := σ.injective (Fin.ext hσ)
    rw [hII, ← hEq]

theorem resolvable_permuted : Resolvable objects' options ↔ Resolvable objects options := by
  have hMem : ∀ object, object ∈ objects' ↔ object ∈ objects :=
    fun _ => mem_permuted hLen σ hGet
  have hIn : SymbolsInTable objects' ↔ SymbolsInTable objects := by
    unfold SymbolsInTable
    simp only [hMem]
  have hMentions : ∀ name, Mentions objects' name ↔ Mentions objects name := by
    intro name
    unfold Mentions
    simp only [hMem]
  have hOnce : DefinedOnce objects' options ↔ DefinedOnce objects options := by
    unfold DefinedOnce
    simp only [hMentions, existsUnique_defines_permuted hLen σ hGet, ← not_exists,
      exists_defines_permuted hLen σ hGet]
  constructor
  · rintro ⟨h₁, h₂, h₃⟩
    refine ⟨hIn.mp h₁, hOnce.mp h₂, ?_⟩
    intro entryName hAsked hNonempty
    exact (exists_defines_permuted hLen σ hGet).mp (h₃ entryName hAsked hNonempty)
  · rintro ⟨h₁, h₂, h₃⟩
    refine ⟨hIn.mpr h₁, hOnce.mpr h₂, ?_⟩
    intro entryName hAsked hNonempty
    exact (exists_defines_permuted hLen σ hGet).mpr (h₃ entryName hAsked hNonempty)

end Permutation

theorem ReadsAs.length_eq (h : ReadsAs files objects) : objects.length = files.length := by
  have hLen := congrArg length h
  rw [length_map, length_map] at hLen
  exact hLen.symm

theorem readsAs_iff_getElem? : ReadsAs files objects ↔ ∀ j : Nat,
      (files[j]?).map (fun file => coffObjectRead file.path file.bytes) =
        (objects[j]?).map Except.ok := by
  simp [ReadsAs, List.ext_getElem?_iff]

theorem readsAs_permuted (σ : Equiv.Perm (Fin files.length)) (hReads : ReadsAs files objects) :
    ∃ objects', ReadsAs (permuteList files σ) objects' ∧ objects.length = files.length ∧
      ∀ (j : Nat) (object : CoffObject), objects'[j]? = some object ↔
        ∃ i : Fin files.length, (i : Nat) = j ∧ objects[(σ i : Nat)]? = some object := by
  have hLen := hReads.length_eq
  refine ⟨ofFn fun i : Fin files.length => objects.get ⟨σ i, by omega⟩, ?_, hLen, ?_⟩
  · rw [readsAs_iff_getElem?]
    intro j
    rw [getElem?_permuteList, List.getElem?_ofFn]
    by_cases hj : j < files.length
    · rw [dif_pos hj, dif_pos hj]
      have h := readsAs_iff_getElem?.mp hReads (σ ⟨j, hj⟩)
      rw [getElem?_eq_getElem (σ ⟨j, hj⟩).isLt, getElem?_eq_getElem (by omega)] at h
      exact h
    · rw [dif_neg hj, dif_neg hj]
      rfl
  · intro j object
    rw [List.getElem?_ofFn]
    constructor
    · intro h
      by_cases hj : j < files.length
      · rw [dif_pos hj] at h
        refine ⟨⟨j, hj⟩, rfl, ?_⟩
        rw [getElem?_eq_getElem (by omega)]
        exact h
      · rw [dif_neg hj] at h
        cases h
    · rintro ⟨i, rfl, h⟩
      rw [dif_pos i.isLt]
      rw [getElem?_eq_getElem (by omega)] at h
      exact h

theorem readsAs_of_permuted (σ : Equiv.Perm (Fin files.length))
    (hReads' : ReadsAs (permuteList files σ) objects') :
    ∃ objects, ReadsAs files objects ∧ objects.length = files.length ∧
      ∀ (j : Nat) (object : CoffObject), objects'[j]? = some object ↔
        ∃ i : Fin files.length, (i : Nat) = j ∧ objects[(σ i : Nat)]? = some object := by
  have hLen' : objects'.length = files.length := by
    rw [hReads'.length_eq, permuteList, length_ofFn]
  -- the objects in the original order
  have hReads : ReadsAs files
      (ofFn fun i : Fin files.length => objects'.get ⟨σ.symm i, by omega⟩) := by
    rw [readsAs_iff_getElem?]
    intro j
    rw [List.getElem?_ofFn]
    by_cases hj : j < files.length
    · rw [dif_pos hj]
      have h := readsAs_iff_getElem?.mp hReads' (σ.symm ⟨j, hj⟩)
      rw [getElem?_permuteList, dif_pos (σ.symm ⟨j, hj⟩).isLt, Fin.eta,
        Equiv.apply_symm_apply, getElem?_eq_getElem (by omega)] at h
      rw [getElem?_eq_getElem hj]
      exact h
    · rw [dif_neg hj, getElem?_eq_none (by omega)]
      rfl
  obtain ⟨objects'', hReads'', hLen, hGet⟩ := readsAs_permuted σ hReads
  rw [hReads''.unique hReads'] at hGet
  exact ⟨_, hReads, hLen, hGet⟩

/-- **Symbol resolution is exact and order independent.** A link succeeds exactly when
there is a file, every file reads, and the objects are `Resolvable`: every positive
section number is a row of its section table, every external name is defined once (or
not at all where imports are allowed), and a requested entry symbol is defined. A name
resolves to the object symbol that defines it. Any order of the files succeeds or fails
alike, and resolves every name to the same symbol of the same file. -/
theorem linkResolutionBuild_exact (files : List ObjectFile) (options : LinkResolutionOptions) :
    ((∃ r, linkResolutionBuild files options = .ok r) ↔
      files ≠ [] ∧ ∃ objects, ReadsAs files objects ∧ Resolvable objects options) ∧
    (∀ r objects, linkResolutionBuild files options = .ok r → ReadsAs files objects →
      ∀ name d, r.resolvesTo name = some d ↔ Defines objects name d) ∧
    ∀ σ : Equiv.Perm (Fin files.length),
      ((∃ r, linkResolutionBuild (permuteList files σ) options = .ok r) ↔
        ∃ r, linkResolutionBuild files options = .ok r) ∧
      ∀ r r', linkResolutionBuild files options = .ok r →
        linkResolutionBuild (permuteList files σ) options = .ok r' →
        ∀ name j s, r'.resolvesTo name = some (j, s) ↔
          ∃ i : Fin files.length, (i : Nat) = j ∧ r.resolvesTo name = some ((σ i : Nat), s) := by
  obtain ⟨hIff, hResolves⟩ := linkResolutionBuild_spec files options
  refine ⟨hIff, hResolves, ?_⟩
  intro σ
  obtain ⟨hIff', hResolves'⟩ := linkResolutionBuild_spec (permuteList files σ) options
  have hEmpty : permuteList files σ ≠ [] ↔ files ≠ [] := by
    rw [not_iff_not, permuteList, ofFn_eq_nil_iff, length_eq_zero_iff]
  constructor
  · rw [hIff, hIff', hEmpty]
    refine and_congr_right fun _ => ?_
    constructor
    · rintro ⟨objects', hReads', hRes⟩
      obtain ⟨objects, hReads, hLen, hGet⟩ := readsAs_of_permuted σ hReads'
      exact ⟨objects, hReads, (resolvable_permuted hLen σ hGet).mp hRes⟩
    · rintro ⟨objects, hReads, hRes⟩
      obtain ⟨objects', hReads', hLen, hGet⟩ := readsAs_permuted σ hReads
      exact ⟨objects', hReads', (resolvable_permuted hLen σ hGet).mpr hRes⟩
  · intro r r' hr hr' name j s
    obtain ⟨-, objects, hReads, -⟩ := hIff.mp ⟨r, hr⟩
    obtain ⟨objects', hReads', hLen, hGet⟩ := readsAs_permuted σ hReads
    rw [hResolves' r' objects' hr' hReads', defines_permuted σ hGet]
    simp only [hResolves r objects hr hReads]

/-- An object file with one empty `.text` section and one external symbol `f` in it. -/
def functionFile : ObjectFile :=
  { path := "f.obj"
    bytes :=
      -- file header: machine, one section, the symbol table at 60 with one entry
      [0x64, 0x86, 1, 0, 0, 0, 0, 0, 60, 0, 0, 0, 1, 0, 0, 0, 0, 0, 0, 0] ++
      -- section header: `.text`, no raw data
      [0x2E, 0x74, 0x65, 0x78, 0x74, 0, 0, 0] ++ List.replicate 28 0 ++ [0x20, 0, 0, 0x60] ++
      -- symbol `f`: value 0, section 1, external
      [0x66, 0, 0, 0, 0, 0, 0, 0, 0, 0, 0, 0, 1, 0, 0x20, 0, 2, 0] }

/-- The object `functionFile` holds. -/
def functionObject : CoffObject :=
  { sections := [⟨cLit ".text", .text, 0, 0x60000020, [], []⟩]
    symbols := [⟨0, some (cLit "f"), 0, 1, 0x20, 2, 0, false, 0, false, 0, 0, 0⟩] }

theorem functionFile_reads : ReadsAs [functionFile] [functionObject] := by
  unfold ReadsAs
  decide +kernel

/-- `f` is the only external name of the object, and its symbol is the only definition. -/
theorem defines_functionObject :
    Defines [functionObject] name d ↔ name = cLit "f" ∧ d = (0, 0) := by
  obtain ⟨o, s⟩ := d
  constructor
  · rintro ⟨object, symbol, hObj, hSym, hName, -⟩
    match o, s with
    | 0, 0 =>
      obtain rfl : functionObject = object := some.inj hObj
      obtain rfl : _ = symbol := some.inj hSym
      exact ⟨(some.inj hName).symm, rfl⟩
    | 0, s + 1 =>
      obtain rfl : functionObject = object := some.inj hObj
      cases hSym
    | o + 1, _ => cases hObj
  · rintro ⟨rfl, hd⟩
    rw [hd]
    exact ⟨functionObject, _, rfl, rfl, by decide, by decide⟩

/-- Every external name of `functionFile` has exactly one definition, yet the link fails
when an entry symbol is asked for that no object defines. -/
theorem definedOnce_not_sufficient : ReadsAs [functionFile] [functionObject] ∧
      DefinedOnce [functionObject] { entrySymbolName := some (cLit "main") } ∧
      ¬ ∃ r, linkResolutionBuild [functionFile] { entrySymbolName := some (cLit "main") } =
        .ok r := by
  refine ⟨functionFile_reads, ?_, ?_⟩
  · rintro name ⟨object, hObj, symbol, hSym, hName⟩
    rw [mem_singleton] at hObj
    subst hObj
    rw [functionObject, mem_singleton] at hSym
    subst hSym
    obtain rfl : cLit "f" = name := some.inj hName
    exact Or.inl ⟨(0, 0), defines_functionObject.mpr ⟨rfl, rfl⟩,
      fun d hd => (defines_functionObject.mp hd).2⟩
  · intro hOk
    obtain ⟨-, objects, hReads, hRes⟩ := (linkResolutionBuild_spec _ _).1.mp hOk
    rw [hReads.unique functionFile_reads] at hRes
    obtain ⟨d, hd⟩ := hRes.entry (cLit "main") rfl (by decide)
    exact absurd (defines_functionObject.mp hd).1 (by decide)

end Mettle.Linker
