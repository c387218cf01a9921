import Mathlib.Data.List.Dedup
import Mathlib.Data.List.Perm.Subperm
import Mettle.Lib.OpenAddressing
import Mettle.Codegen.BinaryEmitter

/-!
# Mettle — the symbol index of the binary emitter

The emitter finds its symbols through a hash index (`binary_emitter_symbol_index_*`): buckets
in a power of two, doubled when 7 of 10 would be full. `IndexedEmitter` is the emitter of
`BinaryEmitter` with that index. A loop of the source that would not end is `none` here. The
lookup hands the index out as an `int`, so it is exact up to 2^31 symbols.

Declaring a name external goes through the same function as defining it and overwrites the
record, also when the name was defined.
-/

namespace Mettle.Codegen

open Mettle.Lib Mettle.Linker List

-- ---
-- The index
-- ---

/-- `binary_emitter_hash_name`: FNV-1a. -/
def binaryEmitterHashName (name : CString) : Nat :=
  (name.foldl (fun hash byte => (hash ^^^ BitVec.ofNat 64 byte.toNat) * 1099511628211#64)
    1469598103934665603#64).toNat

/-- The emitter with its buckets; there are none before the first symbol. -/
structure IndexedEmitter extends BinaryEmitter where
  buckets : List Nat
  deriving DecidableEq

def IndexedEmitter.create : IndexedEmitter := { binaryEmitterCreate with buckets := [] }

def BinaryEmitter.symbolNames (emitter : BinaryEmitter) : List CString :=
  emitter.symbols.map (·.name)

/-- `binary_emitter_symbol_index_insert`, after the symbol was appended. -/
def symbolIndexInsert (names : List CString) (buckets : List Nat) (symbolIndex : Nat) :
    Option (List Nat) := do
  let count := buckets.length
  let grown ←
    if count = 0 ∨ (symbolIndex + 1) * 10 ≥ count * 7 then
      OpenAddressing.rehash binaryEmitterHashName names (if count = 0 then 256 else count * 2)
        names.length
    else some buckets
  OpenAddressing.insert binaryEmitterHashName (· == symbolIndex) names grown symbolIndex

/-- The lookup returns an `int`. -/
def asInt (found : Option Nat) : Option Nat := found.filter (· < 2 ^ 31)

/-- `binary_emitter_find_symbol_index`. -/
def IndexedEmitter.findSymbolIndex (emitter : IndexedEmitter) (name : CString) :
    Option (Option Nat) :=
  if emitter.buckets = [] then some (asInt (emitter.symbolNames.findIdx? (· == name)))
  else
    (OpenAddressing.find binaryEmitterHashName emitter.symbolNames emitter.buckets name).map asInt

/-- `binary_emitter_define_symbol`; an empty name is refused. -/
def IndexedEmitter.defineSymbol (emitter : IndexedEmitter) (name : CString)
    (binding : BinarySymbolBinding) (sectionIndex : Option Nat) (value size : Nat) :
    Option IndexedEmitter :=
  if name = [] then some emitter
  else
    let symbol : BinarySymbol := { name, binding, sectionIndex, value, size }
    match emitter.findSymbolIndex name with
    | none => none
    | some (some i) => some { emitter with symbols := emitter.symbols.set i symbol }
    | some none =>
      let symbols := emitter.symbols ++ [symbol]
      (symbolIndexInsert (symbols.map (·.name)) emitter.buckets emitter.symbols.length).map
        fun buckets => { emitter with symbols, buckets }

inductive SymbolOperation
  | define (name : CString) (binding : BinarySymbolBinding) (sectionIndex : Option Nat)
    (value size : Nat)
  | declareExternal (name : CString)
  deriving DecidableEq

def SymbolOperation.name : SymbolOperation → CString
  | .define name _ _ _ _ => name
  | .declareExternal name => name

def IndexedEmitter.apply (emitter : IndexedEmitter) : SymbolOperation → Option IndexedEmitter
  | .define name binding sectionIndex value size =>
    emitter.defineSymbol name binding sectionIndex value size
  | .declareExternal name => emitter.defineSymbol name .external none 0 0

def IndexedEmitter.applyAll (emitter : IndexedEmitter) (operations : List SymbolOperation) :
    Option IndexedEmitter :=
  operations.foldlM IndexedEmitter.apply emitter

-- ---
-- One operation
-- ---

structure IndexedEmitter.Valid (emitter : IndexedEmitter) : Prop where
  nodup : emitter.symbolNames.Nodup
  nonempty : [] ∉ emitter.symbolNames
  index : emitter.buckets = [] ∧ emitter.symbols = [] ∨
    OpenAddressing.Valid binaryEmitterHashName emitter.symbolNames emitter.buckets ∧
      emitter.symbols.length * 10 < emitter.buckets.length * 7
  power : emitter.buckets ≠ [] → ∃ k, emitter.buckets.length = 2 ^ (8 + k)

theorem IndexedEmitter.create_valid : IndexedEmitter.create.Valid where
  nodup := nodup_nil
  nonempty := not_mem_nil
  index := Or.inl ⟨rfl, rfl⟩
  power h := absurd rfl h

theorem BinaryEmitter.length_symbolNames (emitter : BinaryEmitter) :
    emitter.symbolNames.length = emitter.symbols.length := length_map _

/-- **The lookup is a search of the list.** -/
theorem IndexedEmitter.Valid.find {emitter : IndexedEmitter} (h : emitter.Valid) (name : CString) :
    emitter.findSymbolIndex name = some (asInt (emitter.symbolNames.findIdx? (· == name))) := by
  unfold IndexedEmitter.findSymbolIndex
  rcases h.index with ⟨hNone, -⟩ | ⟨hIndex, hLoad⟩
  · rw [if_pos hNone]
  · have hBuckets : emitter.buckets ≠ [] := by
      intro hNone
      rw [hNone, length_nil] at hLoad
      omega
    have hLength := emitter.length_symbolNames
    rw [if_neg hBuckets, OpenAddressing.find_eq hIndex (by omega) h.nodup, Option.map_some]

variable {names : List CString}

theorem symbolIndexInsert_spec {buckets : List Nat} (name : CString)
    (hIndex : buckets = [] ∧ names = [] ∨ OpenAddressing.Valid binaryEmitterHashName names buckets ∧
        names.length * 10 < buckets.length * 7)
    (hPower : buckets ≠ [] → ∃ k, buckets.length = 2 ^ (8 + k)) :
    ∃ buckets', symbolIndexInsert (names ++ [name]) buckets names.length = some buckets' ∧
      OpenAddressing.Valid binaryEmitterHashName (names ++ [name]) buckets' ∧
      (names ++ [name]).length * 10 < buckets'.length * 7 ∧
      ∃ k, buckets'.length = 2 ^ (8 + k) := by
  have hNew : (names ++ [name])[names.length]? = some name := by
    rw [getElem?_append_right (Nat.le_refl _), Nat.sub_self, getElem?_cons_zero]
  have hLength : (names ++ [name]).length = names.length + 1 := by
    rw [length_append, length_singleton]
  unfold symbolIndexInsert
  by_cases hGrow : buckets.length = 0 ∨ (names.length + 1) * 10 ≥ buckets.length * 7
  · rw [if_pos hGrow]
    -- the new size is a power of two again, and large enough
    have hSize : ∃ k, (if buckets.length = 0 then 256 else buckets.length * 2) = 2 ^ (8 + k) ∧
        (names.length + 1) * 10 < (if buckets.length = 0 then 256 else buckets.length * 2) * 7 := by
      by_cases hNone : buckets = []
      · have hNames : names = [] := by
          rcases hIndex with ⟨-, hNames⟩ | ⟨-, hLoad⟩
          · exact hNames
          · rw [hNone, length_nil] at hLoad
            omega
        refine ⟨0, ?_, ?_⟩
        · rw [hNone]
          rfl
        · rw [hNone, hNames]
          decide
      · obtain ⟨k, hk⟩ := hPower hNone
        have hLoad : names.length * 10 < buckets.length * 7 := by
          rcases hIndex with ⟨h, -⟩ | ⟨-, hLoad⟩
          · exact absurd h hNone
          · exact hLoad
        have hLarge : 2 ^ 8 ≤ buckets.length := by
          rw [hk]
          exact Nat.pow_le_pow_right (by omega) (by omega)
        have hNonzero : buckets.length ≠ 0 := by omega
        refine ⟨k + 1, ?_, ?_⟩
        · rw [if_neg hNonzero, hk, ← Nat.add_assoc, Nat.pow_succ]
        · rw [if_neg hNonzero]
          omega
    obtain ⟨k, hk, hRoom⟩ := hSize
    obtain ⟨grown, hGrown, hValid, hGrownLength⟩ :=
      OpenAddressing.rehash_firstValid binaryEmitterHashName (names ++ [name])
        (if buckets.length = 0 then 256 else buckets.length * 2) (Nat.le_refl _) (by omega)
    rw [take_length] at hValid
    refine ⟨grown, ?_, hValid.toValid, by omega, k, by omega⟩
    rw [hGrown]
    exact OpenAddressing.insert_of_present hValid.toValid (by omega) hNew
  · rw [if_neg hGrow]
    have hSome : buckets ≠ [] := by
      rintro rfl
      exact hGrow (Or.inl rfl)
    rcases hIndex with ⟨hNone, -⟩ | ⟨hValid, hLoad⟩
    · exact absurd hNone hSome
    · obtain ⟨buckets', hInsert, hValid', hSame⟩ :=
        OpenAddressing.insert_valid hValid (by omega) name [] (· == names.length)
          (fun i hi => by rw [beq_eq_false_iff_ne]; omega)
      refine ⟨buckets', hInsert, hValid', by omega, ?_⟩
      rw [hSame]
      exact hPower hSome

theorem asInt_of_lt {name : CString} (hBound : names.length ≤ 2 ^ 31) :
    asInt (names.findIdx? (· == name)) = names.findIdx? (· == name) := by
  cases hFind : names.findIdx? (· == name) with
  | none => rfl
  | some i =>
    obtain ⟨hLt, -⟩ := findIdx?_eq_some_iff_getElem.mp hFind
    exact Option.filter_some_pos (by rw [decide_eq_true_eq]; omega)

def SymbolOperation.symbol : SymbolOperation → BinarySymbol
  | .define name binding sectionIndex value size => { name, binding, sectionIndex, value, size }
  | .declareExternal name =>
    { name, binding := .external, sectionIndex := none, value := 0, size := 0 }

theorem SymbolOperation.symbol_name (operation : SymbolOperation) :
    operation.symbol.name = operation.name := by
  cases operation <;> rfl

def BinaryEmitter.put (emitter : BinaryEmitter) (symbol : BinarySymbol) : BinaryEmitter :=
  (binaryEmitterDefineSymbol emitter symbol.name symbol.binding symbol.sectionIndex symbol.value
    symbol.size).getD emitter

variable {emitter : BinaryEmitter} {symbol : BinarySymbol}

theorem BinaryEmitter.put_eq (hName : symbol.name ≠ []) (hBound : emitter.symbols.length ≤ 2 ^ 31) :
    emitter.put symbol = { emitter with
      symbols := match emitter.symbolNames.findIdx? (· == symbol.name) with
        | some i => emitter.symbols.set i symbol
        | none => emitter.symbols ++ [symbol] } := by
  have hFind : binaryEmitterFindSymbolIndex emitter symbol.name =
      emitter.symbolNames.findIdx? (· == symbol.name) := by
    rw [BinaryEmitter.symbolNames, findIdx?_map]
    unfold binaryEmitterFindSymbolIndex
    rw [show (fun s : BinarySymbol => s.name == symbol.name) =
      (· == symbol.name) ∘ BinarySymbol.name from rfl]
    cases hCase : emitter.symbols.findIdx? ((· == symbol.name) ∘ (·.name)) with
    | none => rfl
    | some i =>
      obtain ⟨hLt, -⟩ := findIdx?_eq_some_iff_getElem.mp hCase
      exact if_pos (by omega)
  unfold BinaryEmitter.put binaryEmitterDefineSymbol
  rw [if_neg hName]
  rw [hFind]
  cases emitter.symbolNames.findIdx? (· == symbol.name) <;> rfl

/-- **One operation.** -/
theorem define_spec {emitter : IndexedEmitter} (h : emitter.Valid)
    (hBound : emitter.symbols.length ≤ 2 ^ 31) (operation : SymbolOperation) :
    ∃ emitter', emitter.apply operation = some emitter' ∧ emitter'.Valid ∧
      emitter'.toBinaryEmitter = emitter.toBinaryEmitter.put operation.symbol := by
  have hApply : emitter.apply operation = emitter.defineSymbol operation.symbol.name
      operation.symbol.binding operation.symbol.sectionIndex operation.symbol.value
      operation.symbol.size := by
    cases operation <;> rfl
  rw [hApply]
  generalize operation.symbol = symbol
  by_cases hName : symbol.name = []
  · refine ⟨emitter, ?_, h, ?_⟩
    · rw [IndexedEmitter.defineSymbol, if_pos hName]
    · rw [BinaryEmitter.put, binaryEmitterDefineSymbol, if_pos hName, Option.getD_none]
  · have hNames : emitter.symbolNames.length ≤ 2 ^ 31 := by
      rw [emitter.length_symbolNames]
      exact hBound
    have hFind := h.find symbol.name
    rw [asInt_of_lt hNames] at hFind
    rw [BinaryEmitter.put_eq hName hBound, IndexedEmitter.defineSymbol, if_neg hName, hFind]
    cases hCase : emitter.symbolNames.findIdx? (· == symbol.name) with
    | some i =>
      -- the record is replaced, its name stays
      obtain ⟨hLt, hSame, -⟩ := findIdx?_eq_some_iff_getElem.mp hCase
      have hKept : (emitter.symbols.set i symbol).map (·.name) = emitter.symbolNames := by
        rw [map_set, ← eq_of_beq hSame]
        exact set_getElem_self hLt
      refine ⟨_, rfl, ⟨?_, ?_, ?_, h.power⟩, rfl⟩
      · change ((emitter.symbols.set i symbol).map (·.name)).Nodup
        rw [hKept]
        exact h.nodup
      · change [] ∉ (emitter.symbols.set i symbol).map (·.name)
        rw [hKept]
        exact h.nonempty
      · change emitter.buckets = [] ∧ emitter.symbols.set i symbol = [] ∨
          OpenAddressing.Valid binaryEmitterHashName
            ((emitter.symbols.set i symbol).map (·.name)) emitter.buckets ∧
          (emitter.symbols.set i symbol).length * 10 < emitter.buckets.length * 7
        rw [hKept, length_set, set_eq_nil_iff]
        exact h.index
    | none =>
      have hNew : symbol.name ∉ emitter.symbolNames := by
        intro hMem
        have hDiffer := findIdx?_eq_none_iff.mp hCase _ hMem
        simp at hDiffer
      have hGrown : (emitter.symbols ++ [symbol]).map (·.name) =
          emitter.symbolNames ++ [symbol.name] := by
        rw [map_append]
        rfl
      have hIndex : emitter.buckets = [] ∧ emitter.symbolNames = [] ∨
          OpenAddressing.Valid binaryEmitterHashName emitter.symbolNames emitter.buckets ∧
            emitter.symbolNames.length * 10 < emitter.buckets.length * 7 := by
        rw [emitter.length_symbolNames, BinaryEmitter.symbolNames, map_eq_nil_iff]
        exact h.index
      obtain ⟨buckets, hInsert, hValid, hLoad, hPower⟩ :=
        symbolIndexInsert_spec symbol.name hIndex h.power
      rw [emitter.length_symbolNames, ← hGrown] at hInsert
      dsimp only
      rw [hInsert]
      refine ⟨_, rfl, ⟨?_, ?_, Or.inr ⟨?_, ?_⟩, fun _ => hPower⟩, rfl⟩
      · change ((emitter.symbols ++ [symbol]).map (·.name)).Nodup
        rw [hGrown, nodup_append]
        refine ⟨h.nodup, nodup_singleton _, ?_⟩
        rintro a ha b hb rfl
        rw [mem_singleton.mp hb] at ha
        exact hNew ha
      · change [] ∉ (emitter.symbols ++ [symbol]).map (·.name)
        rw [hGrown, mem_append, mem_singleton]
        rintro (hOld | hSame)
        · exact h.nonempty hOld
        · exact hName hSame.symm
      · change OpenAddressing.Valid binaryEmitterHashName
          ((emitter.symbols ++ [symbol]).map (·.name)) buckets
        rw [hGrown]
        exact hValid
      · change (emitter.symbols ++ [symbol]).length * 10 < buckets.length * 7
        rw [length_append, length_singleton, emitter.length_symbolNames] at hLoad
        rw [length_append, length_singleton]
        exact hLoad

-- ---
-- Sequences of operations
-- ---

theorem BinaryEmitter.mem_put (hName : symbol.name ≠ []) (hBound : emitter.symbols.length ≤ 2 ^ 31)
    (hNodup : emitter.symbolNames.Nodup) (other : BinarySymbol) :
    other ∈ (emitter.put symbol).symbols ↔
      other = symbol ∨ other ∈ emitter.symbols ∧ other.name ≠ symbol.name := by
  rw [BinaryEmitter.put_eq hName hBound]
  cases hCase : emitter.symbolNames.findIdx? (· == symbol.name) with
  | none =>
    have hNew : ∀ x ∈ emitter.symbols, x.name ≠ symbol.name := by
      intro x hx hSame
      have hDiffer := findIdx?_eq_none_iff.mp hCase x.name (mem_map_of_mem hx)
      rw [hSame] at hDiffer
      simp at hDiffer
    rw [mem_append, mem_singleton]
    constructor
    · rintro (hOld | hSame)
      · exact Or.inr ⟨hOld, hNew other hOld⟩
      · exact Or.inl hSame
    · rintro (hSame | ⟨hOld, -⟩)
      · exact Or.inr hSame
      · exact Or.inl hOld
  | some i =>
    obtain ⟨hLt, hSame, -⟩ := findIdx?_eq_some_iff_getElem.mp hCase
    have hi : i < emitter.symbols.length := by
      rw [← emitter.length_symbolNames]
      exact hLt
    have hName : emitter.symbols[i].name = symbol.name := by
      have hEq := eq_of_beq hSame
      simp only [BinaryEmitter.symbolNames, getElem_map] at hEq
      exact hEq
    constructor
    · intro hMem
      obtain ⟨j, hj, hGet⟩ := getElem_of_mem hMem
      rw [length_set] at hj
      rw [getElem_set] at hGet
      split at hGet
      · exact Or.inl hGet.symm
      · rename_i hNe
        refine Or.inr ⟨hGet ▸ getElem_mem hj, ?_⟩
        intro hAgain
        -- a second symbol of that name
        have hShort : j < emitter.symbolNames.length := by
          rw [emitter.length_symbolNames]
          exact hj
        have hTwice : emitter.symbolNames[j] = emitter.symbolNames[i] := by
          simp only [BinaryEmitter.symbolNames, getElem_map]
          rw [hGet, hAgain, hName]
        exact hNe (hNodup.getElem_inj_iff.mp hTwice).symm
    · rintro (rfl | ⟨hOld, hDiffers⟩)
      · exact mem_set hi _
      · obtain ⟨j, hj, rfl⟩ := getElem_of_mem hOld
        have hNe : i ≠ j := by
          rintro rfl
          exact hDiffers hName
        refine mem_of_getElem? (i := j) ?_
        rw [getElem?_set_ne hNe, getElem?_eq_getElem hj]

theorem BinaryEmitter.put_of_empty (hName : symbol.name = []) : emitter.put symbol = emitter := by
  rw [BinaryEmitter.put, binaryEmitterDefineSymbol, if_pos hName, Option.getD_none]

def BinaryEmitter.putAll (emitter : BinaryEmitter) (operations : List SymbolOperation) :
    BinaryEmitter :=
  operations.foldl (fun emitter operation => emitter.put operation.symbol) emitter

/-- All names come from a list with at most 2^31 different ones. -/
structure NamesWithin (names : List CString) (emitter : BinaryEmitter) : Prop where
  within : emitter.symbolNames ⊆ names
  nodup : emitter.symbolNames.Nodup
  bound : names.dedup.length ≤ 2 ^ 31

theorem NamesWithin.length_le (h : NamesWithin names emitter) :
    emitter.symbols.length ≤ 2 ^ 31 := by
  have hSubset : emitter.symbolNames ⊆ names.dedup := by
    intro name hMem
    exact mem_dedup.mpr (h.within hMem)
  have hLength := (subperm_of_subset h.nodup hSubset).length_le
  rw [emitter.length_symbolNames] at hLength
  exact hLength.trans h.bound

theorem NamesWithin.put_subset (h : NamesWithin names emitter) (hMem : symbol.name ∈ names) :
    (emitter.put symbol).symbolNames ⊆ names := by
  by_cases hName : symbol.name = []
  · rw [BinaryEmitter.put_of_empty hName]
    exact h.within
  · intro name hIn
    obtain ⟨other, hOther, rfl⟩ := mem_map.mp hIn
    rcases (BinaryEmitter.mem_put hName h.length_le h.nodup other).mp hOther with rfl | ⟨hOld, -⟩
    · exact hMem
    · exact h.within (mem_map_of_mem hOld)

/-- **Any sequence of operations** ends, keeps the index valid, and does what the emitter without
an index does. -/
theorem applyAll_spec (hBound : names.dedup.length ≤ 2 ^ 31) {operations : List SymbolOperation}
    {emitter : IndexedEmitter} (h : emitter.Valid) (hWithin : emitter.symbolNames ⊆ names)
    (hNames : operations.map (·.name) ⊆ names) :
    ∃ emitter', emitter.applyAll operations = some emitter' ∧ emitter'.Valid ∧
      emitter'.symbolNames ⊆ names ∧
      emitter'.toBinaryEmitter = emitter.toBinaryEmitter.putAll operations := by
  induction operations generalizing emitter with
  | nil => exact ⟨emitter, rfl, h, hWithin, rfl⟩
  | cons operation rest ih =>
    have hTable : NamesWithin names emitter.toBinaryEmitter := ⟨hWithin, h.nodup, hBound⟩
    obtain ⟨next, hApply, hValid, hNext⟩ := define_spec h hTable.length_le operation
    have hOwn : operation.symbol.name ∈ names := by
      rw [operation.symbol_name]
      exact hNames mem_cons_self
    have hSubset : next.symbolNames ⊆ names := by
      rw [hNext]
      exact hTable.put_subset hOwn
    obtain ⟨last, hLast, hLastValid, hLastWithin, hSame⟩ :=
      ih hValid hSubset (fun name hMem => hNames (mem_cons_of_mem _ hMem))
    refine ⟨last, ?_, hLastValid, hLastWithin, ?_⟩
    · rw [IndexedEmitter.applyAll, foldlM_cons, hApply]
      exact hLast
    · rw [hSame, hNext]
      rfl

def BinarySymbol.isDefined (symbol : BinarySymbol) : Bool := symbol.sectionIndex.isSome

theorem mem_put_external (hTable : NamesWithin names emitter) (hProper : [] ∉ emitter.symbolNames)
    {name : CString} (hDefined : symbol.isDefined = true) :
    symbol ∈ (emitter.put (SymbolOperation.declareExternal name).symbol).symbols ↔
      symbol ∈ emitter.symbols ∧ symbol.name ≠ name := by
  by_cases hEmpty : name = []
  · rw [BinaryEmitter.put_of_empty hEmpty, hEmpty]
    constructor
    · intro hMem
      refine ⟨hMem, ?_⟩
      intro hSame
      exact hProper (hSame ▸ mem_map_of_mem hMem)
    · exact fun h => h.1
  · rw [BinaryEmitter.mem_put hEmpty hTable.length_le hTable.nodup]
    constructor
    · rintro (rfl | hOther)
      · cases hDefined
      · exact hOther
    · exact Or.inr

theorem applyAll_externals (hBound : names.dedup.length ≤ 2 ^ 31) {externals : List CString}
    {emitter emitter' : IndexedEmitter} (h : emitter.Valid) (hWithin : emitter.symbolNames ⊆ names)
    (hNames : externals ⊆ names)
    (hApply : emitter.applyAll (externals.map .declareExternal) = some emitter')
    (hDefined : symbol.isDefined = true) :
    symbol ∈ emitter'.symbols ↔ symbol ∈ emitter.symbols ∧ symbol.name ∉ externals := by
  induction externals generalizing emitter with
  | nil =>
    cases hApply
    simp
  | cons name rest ih =>
    have hTable : NamesWithin names emitter.toBinaryEmitter := ⟨hWithin, h.nodup, hBound⟩
    obtain ⟨next, hNext, hValid, hSame⟩ :=
      define_spec h hTable.length_le (.declareExternal name)
    rw [map_cons, IndexedEmitter.applyAll, foldlM_cons, hNext] at hApply
    have hSubset : next.symbolNames ⊆ names := by
      rw [hSame]
      exact hTable.put_subset (hNames mem_cons_self)
    have hHere : symbol ∈ next.symbols ↔ symbol ∈ emitter.symbols ∧ symbol.name ≠ name := by
      rw [hSame]
      exact mem_put_external hTable h.nonempty hDefined
    rw [ih hValid hSubset (fun x hx => hNames (mem_cons_of_mem _ hx)) hApply, hHere,
      mem_cons, not_or, and_assoc]

/-- The index is exact: names are unique, every lookup ends with what a search of the list finds,
and the buckets are a power of two, so that `& mask` is the remainder. -/
structure IndexedEmitter.IndexExact (emitter : IndexedEmitter) : Prop where
  nodup : emitter.symbolNames.Nodup
  find : ∀ name, emitter.findSymbolIndex name = some (emitter.symbolNames.findIdx? (· == name))
  power : emitter.buckets ≠ [] → ∃ k, emitter.buckets.length = 2 ^ k

/-- The definitions of the first emitter stand unchanged in the second. -/
def KeepsDefinitions (emitter emitter' : IndexedEmitter) : Prop :=
  ∀ symbol ∈ emitter.symbols, symbol.isDefined = true → symbol ∈ emitter'.symbols

def IndexedEmitter.Defines (emitter : IndexedEmitter) (name : CString) : Prop :=
  ∃ symbol ∈ emitter.symbols, symbol.name = name ∧ symbol.isDefined = true

theorem IndexedEmitter.Valid.exact {emitter : IndexedEmitter} (h : emitter.Valid)
    (hTable : NamesWithin names emitter.toBinaryEmitter) :
    emitter.IndexExact where
  nodup := h.nodup
  find name := by
    have hLength : emitter.symbolNames.length ≤ 2 ^ 31 := by
      rw [emitter.length_symbolNames]
      exact hTable.length_le
    rw [h.find, asInt_of_lt hLength]
  power hSome := by
    obtain ⟨k, hk⟩ := h.power hSome
    exact ⟨8 + k, hk⟩

/-- **The symbol index is exact**, after any operations on at most 2^31 names. Of the
definitions it is the ones that are not declared external later which are kept. -/
theorem symbol_index_exact_iff (operations : List SymbolOperation) (externals : List CString)
    (hBound : (operations.map (·.name) ++ externals).dedup.length ≤ 2 ^ 31) :
    ∃ emitter emitter', IndexedEmitter.create.applyAll operations = some emitter ∧
      emitter.applyAll (externals.map .declareExternal) = some emitter' ∧
      emitter.IndexExact ∧ emitter'.IndexExact ∧
      emitter.toBinaryEmitter = binaryEmitterCreate.putAll operations ∧
      (KeepsDefinitions emitter emitter' ↔ ∀ name ∈ externals, ¬emitter.Defines name) := by
  obtain ⟨emitter, hFirst, hValid, hWithin, hSame⟩ :=
    applyAll_spec hBound IndexedEmitter.create_valid (nil_subset _) (subset_append_left _ _)
  have hNames : (externals.map SymbolOperation.declareExternal).map (·.name) ⊆
      operations.map (·.name) ++ externals := by
    rw [map_map]
    intro name hMem
    obtain ⟨own, hOwn, rfl⟩ := mem_map.mp hMem
    exact mem_append_right _ hOwn
  obtain ⟨emitter', hSecond, hValid', hWithin', -⟩ := applyAll_spec hBound hValid hWithin hNames
  refine ⟨emitter, emitter', hFirst, hSecond, hValid.exact ⟨hWithin, hValid.nodup, hBound⟩,
    hValid'.exact ⟨hWithin', hValid'.nodup, hBound⟩, hSame, ?_⟩
  have hKept : ∀ {symbol : BinarySymbol}, symbol.isDefined = true →
      (symbol ∈ emitter'.symbols ↔ symbol ∈ emitter.symbols ∧ symbol.name ∉ externals) :=
    fun hDefined => applyAll_externals hBound hValid hWithin (subset_append_right _ _)
      hSecond hDefined
  constructor
  · rintro hKeeps name hMem ⟨symbol, hSymbol, rfl, hDefined⟩
    exact ((hKept hDefined).mp (hKeeps symbol hSymbol hDefined)).2 hMem
  · intro hNone symbol hSymbol hDefined
    refine (hKept hDefined).mpr ⟨hSymbol, ?_⟩
    intro hMem
    exact hNone _ hMem ⟨symbol, hSymbol, rfl, hDefined⟩

/-- `define_symbol("f", GLOBAL, 0, 16, 4)`. -/
def defineF : SymbolOperation := .define [102] .global (some 0) 16 4

theorem symbol_index_exact_iff_other :
    ([defineF].map SymbolOperation.name ++ [[103]]).dedup.length ≤ 2 ^ 31 ∧
    ∃ emitter emitter', IndexedEmitter.create.applyAll [defineF] = some emitter ∧
      emitter.applyAll [.declareExternal [103]] = some emitter' ∧
      KeepsDefinitions emitter emitter' := by
  have hBound : ([defineF].map SymbolOperation.name ++ [[103]]).dedup.length ≤ 2 ^ 31 := by decide
  obtain ⟨emitter, emitter', hFirst, hSecond, -, -, hSame, hIff⟩ :=
    symbol_index_exact_iff [defineF] [[103]] hBound
  refine ⟨hBound, emitter, emitter', hFirst, hSecond, hIff.mpr ?_⟩
  rintro name hMem ⟨symbol, hSymbol, hName, -⟩
  rw [hSame] at hSymbol
  have hOnly : symbol ∈ [defineF.symbol] := hSymbol
  rw [mem_singleton.mp hOnly, mem_singleton.mp hMem] at hName
  cases hName

/-- The definition of `f` is lost when it is declared external after it. -/
theorem external_loses_definition : (IndexedEmitter.create.applyAll [defineF]).map (·.symbols) =
        some [⟨[102], .global, some 0, 16, 4⟩] ∧
      (IndexedEmitter.create.applyAll [defineF, .declareExternal [102]]).map (·.symbols) =
        some [⟨[102], .external, none, 0, 0⟩] := by
  refine ⟨?_, ?_⟩ <;> decide +kernel

end Mettle.Codegen
