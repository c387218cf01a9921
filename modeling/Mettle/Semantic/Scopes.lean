import Mettle.Semantic.DeclNameMap
import Mettle.Semantic.Types

/-!
# Mettle — scopes and their name index

The scopes of `symbol_table.c`. A scope with many symbols has an index of their names by open
addressing; the others are searched. A probe that would not end is `none`, and whether an array can
be allocated comes with the operation. A symbol belongs to one scope, so it is a value here.
-/

namespace Mettle.Semantic.Scopes

open Mettle.Lib Mettle.Lexing List Option

-- ---
-- Symbols
-- ---

/-- The kinds of symbols. -/
inductive SymbolKind
  | variable | function | struct | enum | constant | parameter | taggedEnumConstructor
  deriving DecidableEq

/-- What a name stands for. -/
structure Symbol where
  name : Lexing.Text
  kind : SymbolKind
  type : Option Ty
  isInitialized : Bool := false
  isForwardDeclaration : Bool := false
  isExtern : Bool := false
  linkName : Option Lexing.Text := none
  /-- Without arrays of names and types, all of them are NULL. -/
  parameters : List (Option Lexing.Text × Option Ty) := []
  returnType : Option Ty := none

/-- `symbol_table_effective_link_name`. -/
def Symbol.effectiveLinkName (symbol : Symbol) : Lexing.Text :=
  match symbol.linkName with
  | some linkName => if symbol.isExtern && linkName ≠ [] then linkName else symbol.name
  | none => symbol.name

/-- `symbol_table_types_compatible`, which compares two types as `type_checker_types_equal`
does. -/
def typesCompatible : Option Ty → Option Ty → Bool
  | none, none => true
  | some lhs, some rhs => lhs.typesEqual rhs
  | _, _ => false

/-- `symbol_table_function_signatures_match`. -/
def functionSignaturesMatch (decl defn : Symbol) : Bool :=
  decl.kind = .function && defn.kind = .function &&
    decl.parameters.length == defn.parameters.length && decl.isExtern == defn.isExtern &&
    (!(decl.isExtern || defn.isExtern) || decl.effectiveLinkName == defn.effectiveLinkName) &&
    typesCompatible (decl.returnType.or decl.type) (defn.returnType.or defn.type) &&
    (decl.parameters.zip defn.parameters).all fun p => typesCompatible p.1.2 p.2.2

-- ---
-- One scope
-- ---

/-- The symbols of a scope and their index. -/
structure Scope where
  symbols : List Symbol := []
  /-- Empty without an index. -/
  nameIndex : List Nat := []

def Scope.names (scope : Scope) : List Lexing.Text := scope.symbols.map (·.name)

/-- `scope_name_index_rebuild`, and whether it succeeds. -/
def scopeNameIndexRebuild (allocated : Bool) (scope : Scope) (bucketCount : Nat) :
    Option (Scope × Bool) :=
  if !allocated then some (scope, false)
  else (OpenAddressing.rehash mettleFnv1aHash scope.names bucketCount scope.symbols.length).map
    fun buckets => ({ scope with nameIndex := buckets }, true)

/-- `scope_name_index_ensure`. -/
def scopeNameIndexEnsure (allocated : Bool) (scope : Scope) : Option (Scope × Bool) :=
  let bucketCount := scope.nameIndex.length
  if scope.symbols.length < 24 then some (scope, false)
  else if bucketCount = 0 ∨ (scope.symbols.length + 1) * 10 ≥ bucketCount * 7 then
    scopeNameIndexRebuild allocated scope (if bucketCount = 0 then 64 else bucketCount * 2)
  else some (scope, true)

/-- `scope_register_appended_symbol`. -/
def scopeRegisterAppendedSymbol (allocated : Bool) (scope : Scope) (newIndex : Nat) :
    Option Scope :=
  match scopeNameIndexEnsure allocated scope with
  | none => none
  | some (scope, ensured) =>
    if !ensured then some scope
    else if scope.nameIndex.length = 0 then some scope
    else (OpenAddressing.insert mettleFnv1aHash (· == newIndex) scope.names scope.nameIndex
      newIndex).map fun buckets => { scope with nameIndex := buckets }

/-- `scope_lookup_symbol`: the place of the symbol. -/
def scopeLookupSymbol (scope : Scope) (name : Lexing.Text) : Option (Option Nat) :=
  if scope.nameIndex.length > 0 then
    OpenAddressing.find mettleFnv1aHash scope.names scope.nameIndex name
  else some (scope.names.findIdx? (· == name))

-- ---
-- The table
-- ---

/-- The scopes from the inside out; the last one is global. -/
structure SymbolTable where
  currentScope : Scope := {}
  parents : List Scope := []

/-- Whether `symbols` has room or can be enlarged, and whether an index can be allocated. -/
structure Allocation where
  symbols : Bool := true
  index : Bool := true

/-- The end of `symbol_table_insert` and `symbol_table_declare`. -/
def SymbolTable.append (table : SymbolTable) (symbol : Symbol) (allocation : Allocation) :
    Option (SymbolTable × Bool) :=
  if !allocation.symbols then some (table, false)
  else
    let scope := table.currentScope
    (scopeRegisterAppendedSymbol allocation.index
      { scope with symbols := scope.symbols ++ [symbol] } scope.symbols.length).map
      fun scope => ({ table with currentScope := scope }, true)

def resolvesForward (symbol existing : Symbol) : Bool :=
  symbol.kind = .function && existing.kind = .function && existing.isForwardDeclaration

/-- `symbol_table_validate_declaration`. -/
def symbolTableValidateDeclaration (table : SymbolTable) (symbol : Symbol) : Option Bool :=
  if symbol.name = [] then some false
  else if symbol.type.isNone then some false
  else if symbol.kind = .function ∧ symbol.parameters.any (fun p => p.1.isNone || p.2.isNone) then
    some false
  else (scopeLookupSymbol table.currentScope symbol.name).map fun found =>
    match found.bind (table.currentScope.symbols[·]?) with
    | none => true
    | some existing => resolvesForward symbol existing && functionSignaturesMatch existing symbol

/-- `symbol_table_declare`. -/
def symbolTableDeclare (table : SymbolTable) (symbol : Symbol) (allocation : Allocation) :
    Option (SymbolTable × Bool) := do
  if !(← symbolTableValidateDeclaration table symbol) then return (table, false)
  let scope := table.currentScope
  match ← scopeLookupSymbol scope symbol.name with
  | none => table.append symbol allocation
  | some i =>
    match scope.symbols[i]? with
    | none => return (table, false)
    | some existing =>
      if resolvesForward symbol existing && functionSignaturesMatch existing symbol then
        let resolved := { existing with isForwardDeclaration := false, isInitialized := true }
        return ({ table with currentScope :=
          { scope with symbols := scope.symbols.set i resolved } }, true)
      else return (table, false)

/-- `symbol_table_declare_forward`. -/
def symbolTableDeclareForward (table : SymbolTable) (symbol : Symbol) (allocation : Allocation) :
    Option (SymbolTable × Bool) := do
  if symbol.kind ≠ .function then return (table, false)
  match (← scopeLookupSymbol table.currentScope symbol.name).bind
      (table.currentScope.symbols[·]?) with
  | some existing =>
    return (table, existing.kind = .function && existing.isForwardDeclaration &&
      functionSignaturesMatch existing symbol)
  | none => symbolTableDeclare table { symbol with isForwardDeclaration := true } allocation

/-- The loop of `symbol_table_lookup` over the scopes. -/
def lookupIn : List Scope → Lexing.Text → Option (Option Symbol)
  | [], _ => some none
  | scope :: parents, name =>
    match scopeLookupSymbol scope name with
    | none => none
    | some (some i) => some scope.symbols[i]?
    | some none => lookupIn parents name

def SymbolTable.scopes (table : SymbolTable) : List Scope := table.currentScope :: table.parents

/-- `symbol_table_lookup`. -/
def symbolTableLookup (table : SymbolTable) (name : Lexing.Text) : Option (Option Symbol) :=
  lookupIn table.scopes name

inductive Operation
  | declare (symbol : Symbol) (allocation : Allocation)
  | declareForward (symbol : Symbol) (allocation : Allocation)
  | insert (symbol : Symbol) (allocation : Allocation)
  | enterScope
  | exitScope

/-- One operation on the table. -/
def SymbolTable.apply (table : SymbolTable) : Operation → Option SymbolTable
  | .declare symbol allocation => (symbolTableDeclare table symbol allocation).map (·.1)
  | .declareForward symbol allocation =>
    (symbolTableDeclareForward table symbol allocation).map (·.1)
  | .insert symbol allocation => (table.append symbol allocation).map (·.1)
  | .enterScope => some ⟨{}, table.scopes⟩
  | .exitScope =>
    match table.parents with
    | [] => some table
    | parent :: parents => some ⟨parent, parents⟩

def SymbolTable.applyAll (table : SymbolTable) (operations : List Operation) : Option SymbolTable :=
  operations.foldlM SymbolTable.apply table

-- ---
-- One symbol more
-- ---

/-- What holds of a scope: the index, if there is one, leads to the first symbol of every name and
has an empty bucket. Its size is a power of two, so that `& mask` is the remainder. -/
structure Scope.Indexed (scope : Scope) : Prop where
  index : scope.nameIndex = [] ∨
    OpenAddressing.FirstValid mettleFnv1aHash scope.names scope.nameIndex ∧
      scope.names.length < scope.nameIndex.length ∧ 24 ≤ scope.symbols.length
  power : scope.nameIndex ≠ [] → ∃ k, scope.nameIndex.length = 2 ^ (6 + k)

theorem Scope.length_names (scope : Scope) : scope.names.length = scope.symbols.length :=
  length_map _

theorem Scope.Indexed.empty : Scope.Indexed {} := ⟨Or.inl rfl, fun h => absurd rfl h⟩

variable {scope : Scope}

/-- **The lookup in a scope is a search.** -/
theorem Scope.Indexed.lookup (h : scope.Indexed) (name : Lexing.Text) :
    scopeLookupSymbol scope name = some (scope.names.findIdx? (· == name)) := by
  unfold scopeLookupSymbol
  rcases h.index with hNone | ⟨hIndex, hRoom, -⟩
  · rw [if_neg (by rw [hNone, length_nil]; omega)]
  · rw [if_pos (by omega), OpenAddressing.find_first hIndex hRoom]

/-- The allocations behind which the index is exact: an index that has to grow can do so, and a
first index is not made for more symbols than its 64 buckets have room for. -/
def IndexSafe (allocated : Bool) (scope : Scope) : Prop :=
  if scope.nameIndex = [] then allocated = true → scope.symbols.length < 63
  else (scope.symbols.length + 2) * 10 ≥ scope.nameIndex.length * 7 → allocated = true

instance (allocated : Bool) (scope : Scope) : Decidable (IndexSafe allocated scope) := by
  unfold IndexSafe
  infer_instance

variable {allocated : Bool}

theorem register_of_ensured {ensured : Scope}
    (hEnsure : scopeNameIndexEnsure allocated scope = some (ensured, true))
    (hIndex : ensured.nameIndex.length ≠ 0) (i : Nat) :
    scopeRegisterAppendedSymbol allocated scope i =
      (OpenAddressing.insert mettleFnv1aHash (· == i) ensured.names ensured.nameIndex i).map
        fun buckets => { ensured with nameIndex := buckets } := by
  unfold scopeRegisterAppendedSymbol
  rw [hEnsure]
  exact if_neg hIndex

theorem register_rebuilt {k size : Nat} (hRoom : scope.names.length < size)
    (hLarge : 24 ≤ scope.symbols.length) (hSize : size = 2 ^ (6 + k))
    (hEnsure : scopeNameIndexEnsure allocated scope = scopeNameIndexRebuild true scope size)
    {name : Lexing.Text} {i : Nat} (hName : scope.names[i]? = some name) :
    ∃ scope', scopeRegisterAppendedSymbol allocated scope i = some scope' ∧ scope'.Indexed ∧
      scope'.symbols = scope.symbols := by
  obtain ⟨buckets, hRehash, hValid, hLength⟩ := OpenAddressing.rehash_firstValid mettleFnv1aHash
    scope.names size (Nat.le_refl _) (Nat.le_of_lt hRoom)
  rw [take_length] at hValid
  have hRebuild : scopeNameIndexRebuild true scope size =
      some ({ scope with nameIndex := buckets }, true) := by
    rw [scope.length_names] at hRehash
    rw [scopeNameIndexRebuild, hRehash]
    rfl
  -- the rebuild has put the new symbol into the index
  have hPresent := OpenAddressing.insert_of_present hValid.toValid (hLength ▸ hRoom) hName
  refine ⟨{ scope with nameIndex := buckets }, ?_, ?_, rfl⟩
  · rw [register_of_ensured (hEnsure.trans hRebuild) (by dsimp only; omega)]
    exact congrArg (Option.map _) hPresent
  · exact ⟨Or.inr ⟨hValid, hLength ▸ hRoom, hLarge⟩, fun _ => ⟨k, hLength.trans hSize⟩⟩

/-- **Registering the symbol that was appended.** -/
theorem Scope.Indexed.append (h : scope.Indexed) (hSafe : IndexSafe allocated scope)
    (symbol : Symbol) :
    ∃ scope', scopeRegisterAppendedSymbol allocated
        { scope with symbols := scope.symbols ++ [symbol] } scope.symbols.length = some scope' ∧
      scope'.Indexed ∧ scope'.symbols = scope.symbols ++ [symbol] := by
  generalize hGrown : { scope with symbols := scope.symbols ++ [symbol] } = grown
  have hSymbols : grown.symbols = scope.symbols ++ [symbol] := by rw [← hGrown]
  have hIndex : grown.nameIndex = scope.nameIndex := by rw [← hGrown]
  have hNames : grown.names = scope.names ++ [symbol.name] := by
    rw [Scope.names, hSymbols, map_append]
    rfl
  have hCount : grown.symbols.length = scope.symbols.length + 1 := by
    rw [hSymbols, length_append, length_singleton]
  have hLast : grown.names[scope.symbols.length]? = some symbol.name := by
    rw [hNames, ← scope.length_names, getElem?_append_right (Nat.le_refl _), Nat.sub_self,
      getElem?_cons_zero]
  have hLength := grown.length_names
  rw [← hSymbols]
  unfold IndexSafe at hSafe
  rcases h.index with hNone | ⟨hValid, hRoom, hLarge⟩
  · -- no index yet
    rw [if_pos hNone] at hSafe
    by_cases hBuild : 24 ≤ grown.symbols.length ∧ allocated = true
    · obtain ⟨hMany, rfl⟩ := hBuild
      have hFew := hSafe rfl
      refine @register_rebuilt grown _ 0 64 (by omega) hMany rfl ?_ _ _ hLast
      simp only [scopeNameIndexEnsure, hIndex, hNone, length_nil, if_neg (Nat.not_lt.mpr hMany)]
      rfl
    · have hStill := hIndex.trans hNone
      refine ⟨grown, ?_, ⟨Or.inl hStill, fun hSome => absurd hStill hSome⟩, rfl⟩
      have hEnsure : scopeNameIndexEnsure allocated grown = some (grown, false) := by
        simp only [scopeNameIndexEnsure, hIndex, hNone, length_nil]
        split
        · rfl
        · rename_i hMany
          have hFails : allocated = false := by
            rw [← Bool.not_eq_true]
            exact fun hOk => hBuild ⟨Nat.not_lt.mp hMany, hOk⟩
          rw [hFails]
          rfl
      rw [scopeRegisterAppendedSymbol, hEnsure]
      rfl
  · have hSome : scope.nameIndex ≠ [] := by
      intro hNone
      rw [hNone] at hRoom
      cases hRoom
    obtain ⟨k, hPower⟩ := h.power hSome
    have hOld := scope.length_names
    rw [if_neg hSome] at hSafe
    by_cases hGrows : (grown.symbols.length + 1) * 10 ≥ scope.nameIndex.length * 7
    · obtain rfl := hSafe (by omega)
      refine @register_rebuilt grown _ (k + 1) (scope.nameIndex.length * 2) (by omega)
        (by omega) (by rw [hPower, ← Nat.add_assoc, Nat.pow_succ]) ?_ _ _ hLast
      simp only [scopeNameIndexEnsure, hIndex, if_neg (show ¬grown.symbols.length < 24 by omega),
        if_pos (show scope.nameIndex.length = 0 ∨ _ from Or.inr hGrows),
        if_neg (show scope.nameIndex.length ≠ 0 by omega)]
    · obtain ⟨buckets, hInsert, hValid', hSame⟩ := OpenAddressing.insert_firstValid hValid hRoom
        symbol.name [] (· == scope.names.length) (fun i hi => by rw [beq_eq_false_iff_ne]; omega)
      rw [← hNames, hOld, ← hIndex] at hInsert
      rw [← hNames] at hValid'
      have hEnsure : scopeNameIndexEnsure allocated grown = some (grown, true) := by
        simp only [scopeNameIndexEnsure, hIndex, if_neg (show ¬grown.symbols.length < 24 by omega)]
        exact if_neg (by omega)
      refine ⟨{ grown with nameIndex := buckets }, ?_, ⟨Or.inr ⟨hValid', ?_, ?_⟩, ?_⟩, rfl⟩
      · rw [register_of_ensured hEnsure (by rw [hIndex]; omega), hInsert]
        rfl
      · change grown.names.length < buckets.length
        omega
      · change 24 ≤ grown.symbols.length
        omega
      · exact fun _ => ⟨k, hSame.trans hPower⟩

-- ---
-- Runs of operations
-- ---

variable {table : SymbolTable}

def SymbolTable.Indexed (table : SymbolTable) : Prop := ∀ scope ∈ table.scopes, scope.Indexed

def Operation.Safe (table : SymbolTable) : Operation → Prop
  | .declare _ allocation | .declareForward _ allocation | .insert _ allocation =>
    IndexSafe allocation.index table.currentScope
  | .enterScope | .exitScope => True

/-- Every operation of the run is safe in the table it meets. -/
def SafeRun : SymbolTable → List Operation → Prop
  | _, [] => True
  | table, operation :: rest =>
    operation.Safe table ∧ ∀ next, table.apply operation = some next → SafeRun next rest

instance (table : SymbolTable) (operation : Operation) : Decidable (operation.Safe table) := by
  unfold Operation.Safe
  cases operation <;> infer_instance

instance decideSafeRun : (table : SymbolTable) → (operations : List Operation) →
    Decidable (SafeRun table operations)
  | _, [] => .isTrue trivial
  | table, operation :: rest =>
    match hNext : table.apply operation with
    | none => decidable_of_iff (operation.Safe table) <| by
      simp only [SafeRun, hNext, reduceCtorEq, false_implies, implies_true, and_true]
    | some next =>
      have := decideSafeRun next rest
      decidable_of_iff (operation.Safe table ∧ SafeRun next rest) <| by
        simp only [SafeRun, hNext, some.injEq, forall_eq']

theorem SymbolTable.Indexed.current (h : table.Indexed) : table.currentScope.Indexed :=
  h _ mem_cons_self

theorem SymbolTable.Indexed.replace (h : table.Indexed) (hScope : scope.Indexed) :
    SymbolTable.Indexed { table with currentScope := scope } := by
  intro other hMem
  rcases mem_cons.mp hMem with rfl | hParent
  · exact hScope
  · exact h other (mem_cons_of_mem _ hParent)

variable {allocation : Allocation}

theorem append_spec (h : table.Indexed) (hSafe : IndexSafe allocation.index table.currentScope)
    (symbol : Symbol) :
    ∃ result, table.append symbol allocation = some result ∧ result.1.Indexed := by
  unfold SymbolTable.append
  split
  · exact ⟨_, rfl, h⟩
  · obtain ⟨scope, hRegister, hIndexed, -⟩ := h.current.append hSafe symbol
    dsimp only
    rw [hRegister]
    exact ⟨_, rfl, h.replace hIndexed⟩

theorem Scope.Indexed.set (h : scope.Indexed) {i : Nat} {existing resolved : Symbol}
    (hGet : scope.symbols[i]? = some existing) (hName : resolved.name = existing.name) :
    Scope.Indexed { scope with symbols := scope.symbols.set i resolved } := by
  have hNames : (scope.symbols.set i resolved).map (·.name) = scope.names := by
    obtain ⟨hLt, hAt⟩ := List.getElem_of_getElem? hGet
    have hIn : i < scope.names.length := by rwa [scope.length_names]
    have hHere : scope.names[i] = existing.name := by simp [Scope.names, hAt]
    rw [List.map_set, hName, ← hHere]
    exact List.set_getElem_self _
  refine ⟨?_, h.power⟩
  unfold Scope.names
  rw [hNames, List.length_set]
  exact h.index

section

variable (h : table.Indexed) (hSafe : IndexSafe allocation.index table.currentScope)
include h hSafe

theorem declare_spec (symbol : Symbol) :
    ∃ result, symbolTableDeclare table symbol allocation = some result ∧ result.1.Indexed := by
  have hLookup := h.current.lookup symbol.name
  have hValidate : ∃ accepted, symbolTableValidateDeclaration table symbol = some accepted := by
    unfold symbolTableValidateDeclaration
    rw [hLookup]
    split
    · exact ⟨_, rfl⟩
    split
    · exact ⟨_, rfl⟩
    split <;> exact ⟨_, rfl⟩
  obtain ⟨accepted, hAccepted⟩ := hValidate
  unfold symbolTableDeclare
  rw [hAccepted]
  cases accepted with
  | false => exact ⟨_, rfl, h⟩
  | true =>
    dsimp only [bind_eq_bind, bind_some]
    rw [if_neg (by decide), hLookup]
    dsimp only [bind_some]
    split
    · exact append_spec h hSafe symbol
    · split
      · exact ⟨_, rfl, h⟩
      · rename_i existing hGet
        split
        · exact ⟨_, rfl, h.replace (h.current.set hGet rfl)⟩
        · exact ⟨_, rfl, h⟩

theorem declareForward_spec (symbol : Symbol) :
    ∃ result, symbolTableDeclareForward table symbol allocation = some result ∧
      result.1.Indexed := by
  unfold symbolTableDeclareForward
  rw [h.current.lookup symbol.name]
  split
  · exact ⟨_, rfl, h⟩
  · dsimp only [bind_eq_bind, bind_some]
    split
    · exact ⟨_, rfl, h⟩
    · exact declare_spec h hSafe _

end

/-- **One operation** ends and keeps the scopes indexed. -/
theorem apply_spec (h : table.Indexed) {operation : Operation} (hSafe : operation.Safe table) :
    ∃ next, table.apply operation = some next ∧ next.Indexed := by
  cases operation with
  | declare symbol allocation =>
    obtain ⟨result, hResult, hIndexed⟩ := declare_spec h hSafe symbol
    exact ⟨result.1, by rw [SymbolTable.apply, hResult, map_some], hIndexed⟩
  | declareForward symbol allocation =>
    obtain ⟨result, hResult, hIndexed⟩ := declareForward_spec h hSafe symbol
    exact ⟨result.1, by rw [SymbolTable.apply, hResult, map_some], hIndexed⟩
  | insert symbol allocation =>
    obtain ⟨result, hResult, hIndexed⟩ := append_spec h hSafe symbol
    exact ⟨result.1, by rw [SymbolTable.apply, hResult, map_some], hIndexed⟩
  | enterScope =>
    refine ⟨_, rfl, ?_⟩
    intro scope hMem
    rcases mem_cons.mp hMem with rfl | hOld
    · exact Scope.Indexed.empty
    · exact h scope hOld
  | exitScope =>
    rw [SymbolTable.apply]
    cases hParents : table.parents with
    | nil => exact ⟨table, rfl, h⟩
    | cons parent parents =>
      refine ⟨_, rfl, ?_⟩
      intro scope hMem
      refine h scope (mem_cons_of_mem _ ?_)
      rwa [hParents]

theorem applyAll_spec (h : table.Indexed) {operations : List Operation}
    (hSafe : SafeRun table operations) :
    ∃ last, table.applyAll operations = some last ∧ last.Indexed := by
  induction operations generalizing table with
  | nil => exact ⟨table, rfl, h⟩
  | cons operation rest ih =>
    obtain ⟨next, hApply, hNext⟩ := apply_spec h hSafe.1
    obtain ⟨last, hLast, hIndexed⟩ := ih hNext (hSafe.2 next hApply)
    refine ⟨last, ?_, hIndexed⟩
    rw [SymbolTable.applyAll, foldlM_cons, hApply]
    exact hLast

/-- The innermost symbol of the name, and the first one in its scope. -/
def innermost (scopes : List Scope) (name : Lexing.Text) : Option Symbol :=
  scopes.findSome? fun scope => scope.symbols.find? (·.name == name)

theorem lookupIn_eq {scopes : List Scope} (h : ∀ scope ∈ scopes, scope.Indexed)
    (name : Lexing.Text) :
    lookupIn scopes name = some (innermost scopes name) := by
  induction scopes with
  | nil => rfl
  | cons scope parents ih =>
    have hFirst : scope.symbols.find? (·.name == name) =
        (scope.names.findIdx? (· == name)).bind (scope.symbols[·]?) := by
      rw [find?_eq_bind_findIdx?_getElem?, Scope.names, findIdx?_map]
      rfl
    rw [lookupIn, (h scope mem_cons_self).lookup, innermost, findSome?_cons, hFirst]
    cases hFind : scope.names.findIdx? (· == name) with
    | none => exact ih fun other hMem => h other (mem_cons_of_mem _ hMem)
    | some i =>
      obtain ⟨hi, -⟩ := findIdx?_eq_some_iff_getElem.mp hFind
      rw [scope.length_names] at hi
      simp [getElem?_eq_getElem hi]

/-- **Lookup in a scope is a search, and over the scopes it finds the innermost symbol**, after any
operations whose allocations leave no index behind; every probe ends. -/
theorem scope_lookup_exact (operations : List Operation) (hSafe : SafeRun {} operations) :
    ∃ table, SymbolTable.applyAll {} operations = some table ∧ (∀ scope ∈ table.scopes,
        (∀ name, scopeLookupSymbol scope name = some (scope.names.findIdx? (· == name))) ∧
        (scope.nameIndex ≠ [] → ∃ k, scope.nameIndex.length = 2 ^ k)) ∧
      ∀ name, symbolTableLookup table name = some (innermost table.scopes name) := by
  have hStart : SymbolTable.Indexed {} := by
    intro scope hMem
    rw [mem_singleton.mp hMem]
    exact Scope.Indexed.empty
  obtain ⟨table, hApply, hIndexed⟩ := applyAll_spec hStart hSafe
  refine ⟨table, hApply, ?_, lookupIn_eq hIndexed⟩
  intro scope hMem
  refine ⟨(hIndexed scope hMem).lookup, ?_⟩
  intro hSome
  obtain ⟨k, hPower⟩ := (hIndexed scope hMem).power hSome
  exact ⟨6 + k, hPower⟩

/-- A variable whose name is one letter. -/
def letter (i : Nat) : Symbol :=
  { name := [Char.ofNat (65 + i)], kind := .variable, type := some .int64 }

/-- Forty-four declarations, for which the index is built and grows, and one in a scope inside. -/
def grownIndex : List Operation :=
  (List.range 44).map (fun i => .declare (letter i) {}) ++ [.enterScope, .insert (letter 3) {}]

theorem scope_lookup_exact_grown : ∃ table, SymbolTable.applyAll {} grownIndex = some table ∧
      table.parents.map (·.nameIndex.length) = [128] ∧
      ∀ name, symbolTableLookup table name = some (innermost table.scopes name) := by
  obtain ⟨table, hApply, -, hLookup⟩ := scope_lookup_exact grownIndex (by decide +kernel)
  have hSize : (SymbolTable.applyAll {} grownIndex).map
      (fun table => table.parents.map (·.nameIndex.length)) = some [128] := by
    decide +kernel
  rw [hApply] at hSize
  exact ⟨table, hApply, some.inj hSize, hLookup⟩

/-- Forty-four symbols; when the last one is inserted the index cannot grow. -/
def failedGrowth : List Operation :=
  (List.range 44).map fun i => .insert (letter i) { index := i != 43 }

/-- The symbol is in the scope, and the lookup misses it. -/
theorem failed_growth_loses_symbol : ∃ table, SymbolTable.applyAll {} failedGrowth = some table ∧
      (symbolTableLookup table (letter 43).name).map Option.isSome = some false ∧
      (innermost table.scopes (letter 43).name).isSome = true := by
  have hRun : ((SymbolTable.applyAll {} failedGrowth).map fun table =>
      ((symbolTableLookup table (letter 43).name).map isSome,
        (innermost table.scopes (letter 43).name).isSome)) = some (some false, true) := by
    decide
  obtain ⟨table, hApply, hFound⟩ := map_eq_some_iff.mp hRun
  obtain ⟨hLookup, hInnermost⟩ := Prod.mk.inj hFound
  exact ⟨table, hApply, hLookup, hInnermost⟩

end Mettle.Semantic.Scopes
