import Mathlib.Data.List.Induction
import Mettle.Semantic.DeclNameMap

/-!
# Mettle — what an import keeps

An import keeps the selected or the exported declarations of a module and what they
need (`import_resolver.c`). `collect_called_function_names` gives the names that a
declaration uses; for selected names the declarations are scanned again until
nothing changes, for exported ones a worklist looks the names up in a
`DeclNameMap`. A loop takes a number of rounds and is `none` when they are used up. There
is memory for all of it.

A name is a text here as in the source: a local variable is not told apart from a
global of the same name.
-/

namespace Mettle.Semantic

open Mettle.Lib Mettle.Lexing Mettle.Parser List Option

-- ---
-- The collector
-- ---

/-- Adds a text once. -/
def pathSetAdd (paths : List Text) (path : Text) : List Text :=
  if path ∈ paths then paths else paths ++ [path]

/-- The children that `collect_called_function_names` goes to, in its order. -/
def visited {α : Type} : NodeData → List α → List α
  | .program, cs => cs
  | .varDeclaration _ _ _, cs => cs
  | .functionDeclaration _, cs => cs
  -- the object before the arguments
  | .functionCall _ _ true, cs => cs.getLast?.toList ++ cs.dropLast
  | .functionCall _ _ false, cs => cs
  | .funcPtrCall, cs => cs
  | .assignment _ _, cs => cs
  | .returnStatement, cs => cs.take 1
  | .binaryExpression _, cs => cs
  | .unaryExpression _, cs => cs
  | .memberAccess _, cs => cs
  | .indexExpression, cs => cs
  | .ifStatement, cs => cs
  | .whileStatement _, cs => cs
  | .forStatement _, cs => cs
  -- the expression before the clauses
  | .switchStatement, cs => cs.getLast?.toList ++ cs.dropLast
  | .caseClause _, cs => cs
  | _, _ => []

def calledName : NodeData → List Text
  | .identifier name => if name = [] then [] else [name]
  | .functionCall functionName _ _ => if functionName = [] then [] else [functionName]
  | _ => []

mutual

def calledNames : Tree → List Text
  | .node data children => calledName data ++ (visited data (calledNamesAll children)).flatten

def calledNamesAll : List Tree → List (List Text)
  | [] => []
  | t :: ts => calledNames t :: calledNamesAll ts

end

/-- Adds the names that a tree uses. -/
def collectCalledFunctionNames (node : Tree) (names : List Text) : List Text :=
  (calledNames node).foldl pathSetAdd names

-- ---
-- Selected names
-- ---

/-- The mark `export`. -/
def isDeclarationExported : Tree → Bool
  | .node (.functionDeclaration header) _ => header.isExported
  | .node (.structDeclaration _ _ isExported _ _) _ => isExported
  | .node (.enumDeclaration _ _ isExported) _ => isExported
  | .node (.traitDeclaration _ isExported) _ => isExported
  | .node (.varDeclaration _ _ isExported) _ => isExported
  | .node (.implDeclaration _ _) _ => true
  | _ => false

/-- Whether the name of a declaration is in `required_names`. -/
def isRequired (decl : Tree) (requiredNames : List Text) : Bool :=
  match getDeclarationName decl with
  | none => false
  | some name => name ∈ requiredNames

structure ClosureScan where
  includeFlags : List Bool
  requiredNames : List Text
  changed : Bool

/-- The body of the scan, for declaration `j`. -/
def scanStep (declarations : List Tree) (s : ClosureScan) (j : Nat) : ClosureScan :=
  match declarations[j]?, s.includeFlags[j]? with
  | some decl, some false =>
    if isRequired decl s.requiredNames then
      ⟨s.includeFlags.set j true, collectCalledFunctionNames decl s.requiredNames, true⟩
    else s
  | _, _ => s

def scan (declarations : List Tree) (includeFlags : List Bool) (requiredNames : List Text) :
    ClosureScan :=
  (List.range declarations.length).foldl (scanStep declarations)
    ⟨includeFlags, requiredNames, false⟩

/-- `while (changed)`. -/
def scanLoop (declarations : List Tree) : Nat → List Bool → List Text → Option (List Bool)
  | 0, _, _ => none
  | rounds + 1, includeFlags, requiredNames =>
    let s := scan declarations includeFlags requiredNames
    if s.changed then scanLoop declarations rounds s.includeFlags s.requiredNames
    else some s.includeFlags

def selectedClosure (selectedNames : List Text) (declarations : List Tree) : Option (List Bool) :=
  let seeds := scan declarations (declarations.map fun _ => false)
    (selectedNames.foldl pathSetAdd [])
  scanLoop declarations (declarations.length + 1) seeds.includeFlags seeds.requiredNames

-- ---
-- Exported names
-- ---

def unlock (get : Text → Option (Option Nat)) :
    List Text → List Bool → List Nat → Option (List Bool × List Nat)
  | [], includeFlags, worklist => some (includeFlags, worklist)
  | name :: names, includeFlags, worklist =>
    (get name).bind fun target =>
      match target with
      | none => unlock get names includeFlags worklist
      | some target =>
        if includeFlags[target]? = some false then
          unlock get names (includeFlags.set target true) (target :: worklist)
        else unlock get names includeFlags worklist

/-- `while (worklist_len > 0)`. -/
def exportLoop (get : Text → Option (Option Nat)) (declarations : List Tree) :
    Nat → List Bool → List Text → List Nat → Option (List Bool)
  | 0, _, _, _ => none
  | _ + 1, includeFlags, _, [] => some includeFlags
  | rounds + 1, includeFlags, requiredNames, j :: worklist =>
    match declarations[j]? with
    | none => none
    | some decl =>
      let names := collectCalledFunctionNames decl requiredNames
      (unlock get (names.drop requiredNames.length) includeFlags worklist).bind fun next =>
        exportLoop get declarations rounds next.1 names next.2

def exportedIndices (declarations : List Tree) : List Nat :=
  (List.range declarations.length).filter fun j =>
    declarations[j]?.any isDeclarationExported

def exportClosure (declarations : List Tree) : Option (List Bool) :=
  (declNameMap declarations).bind fun nameMap =>
    exportLoop (declNameMapGet nameMap) declarations (declarations.length + 1)
      (declarations.map isDeclarationExported) [] (exportedIndices declarations).reverse

def rescannedExports (declarations : List Tree) : Option (List Bool) :=
  scanLoop declarations (declarations.length + 1) (declarations.map isDeclarationExported)
    ((declarations.filter isDeclarationExported).foldl
      (fun names decl => collectCalledFunctionNames decl names) [])

def includedDeclarations (selectedNames : List Text) (declarations : List Tree) :
    Option (List Bool) :=
  if selectedNames ≠ [] then selectedClosure selectedNames declarations
  else if declarations.any isDeclarationExported then exportClosure declarations
  else some (declarations.map fun _ => true)

-- ---
-- What should be kept
-- ---

def isTypeNameChar (c : Char) : Bool := c.isAlphanum || c == '_'

def typeNames (typeName : Text) : List Text :=
  (typeName.splitOnP fun c => !isTypeNameChar c).filter fun name =>
    match name with
    | [] => false
    | c :: _ => !c.isDigit

def headerTypeTexts (header : FunctionHeader) : List Text :=
  header.parameterTypes ++ header.returnType.toList ++ header.typeParamTraits.filterMap id

def namesIn : NodeData → List Text
  | .varDeclaration _ typeName _ => typeName.toList.flatMap typeNames
  | .functionDeclaration header => (headerTypeTexts header).flatMap typeNames
  | .methodDeclaration header => (headerTypeTexts header).flatMap typeNames
  | .structDeclaration _ fieldTypes _ _ typeParamTraits =>
    (fieldTypes ++ typeParamTraits.filterMap id).flatMap typeNames
  | .enumDeclaration _ variants _ =>
    (variants.filterMap fun variant => variant.payloadType).flatMap typeNames
  | .implDeclaration traitName forTypeName => traitName :: typeNames forTypeName
  | .assignment variableName _ => variableName.toList
  | .functionCall functionName typeArgs _ => functionName :: typeArgs.flatMap typeNames
  | .matchStatement arms _ => arms.filterMap fun arm => arm.variantName
  | .identifier name => [name]
  | .newExpression typeName => typeNames typeName
  | .castExpression typeName => typeNames typeName
  | _ => []

def references : Tree → List Text := Tree.collect namesIn

def declaredNames (decl : Tree) : List Text :=
  (getDeclarationName decl).toList ++
    match decl with
    | .node (.enumDeclaration _ variants _) _ => variants.map fun variant => variant.name
    | _ => []

section

variable (selectedNames : List Text) (declarations : List Tree)

def wantedNames : List Text :=
  if selectedNames = [] then
    (declarations.filter isDeclarationExported).filterMap getDeclarationName
  else selectedNames

/-- The declarations that are kept for themselves: those of a wanted name, all
exported ones, and all of a module that exports nothing. -/
def Wanted : Set Nat := {j | ∃ decl, declarations[j]? = some decl ∧
  ((∃ name ∈ wantedNames selectedNames declarations, getDeclarationName decl = some name) ∨
    selectedNames = [] ∧ (isDeclarationExported decl = true ∨
      declarations.any isDeclarationExported = false))}

/-- Declaration `i` refers to a name that declaration `j` declares. -/
def RefersTo (i j : Nat) : Prop :=
  ∃ decl target name, declarations[i]? = some decl ∧ declarations[j]? = some target ∧
    name ∈ references decl ∧ name ∈ declaredNames target

def included (includeFlags : List Bool) : Set Nat := {j | includeFlags[j]? = some true}

/-- **What an import should keep.** -/
def KeptExactly : Prop :=
  ∃ includeFlags, includedDeclarations selectedNames declarations = some includeFlags ∧
    IsLeast (ClosedAbove (Wanted selectedNames declarations) (RefersTo declarations))
      (included includeFlags) ∧
    (selectedNames = [] → declarations.any isDeclarationExported = true →
      rescannedExports declarations = some includeFlags)

end

-- ---
-- Collecting
-- ---

theorem foldl_pathSetAdd (names added : List Text) :
    ∃ fresh, added.foldl pathSetAdd names = names ++ fresh ∧
      ∀ name, name ∈ names ++ fresh ↔ name ∈ names ∨ name ∈ added := by
  induction added generalizing names with
  | nil => exact ⟨[], by simp, by simp⟩
  | cons a added ih =>
    rw [foldl_cons]
    by_cases hMem : a ∈ names
    · rw [pathSetAdd, if_pos hMem]
      obtain ⟨fresh, hFold, hNames⟩ := ih names
      refine ⟨fresh, hFold, fun name => ?_⟩
      rw [hNames, mem_cons]
      constructor
      · rintro (hOld | hNew)
        · exact .inl hOld
        · exact .inr (.inr hNew)
      · rintro (hOld | rfl | hNew)
        · exact .inl hOld
        · exact .inl hMem
        · exact .inr hNew
    · rw [pathSetAdd, if_neg hMem]
      obtain ⟨fresh, hFold, hNames⟩ := ih (names ++ [a])
      refine ⟨a :: fresh, by simpa using hFold, fun name => ?_⟩
      have hName := hNames name
      simp only [mem_append, mem_cons, not_mem_nil, or_false] at hName ⊢
      tauto

variable {names : List Text} {name : Text}

theorem mem_foldl_pathSetAdd {added : List Text} :
    name ∈ added.foldl pathSetAdd names ↔ name ∈ names ∨ name ∈ added := by
  obtain ⟨fresh, hFold, hNames⟩ := foldl_pathSetAdd names added
  rw [hFold]
  exact hNames name

variable {decl : Tree}

theorem mem_collectCalledFunctionNames :
    name ∈ collectCalledFunctionNames decl names ↔ name ∈ names ∨ name ∈ calledNames decl :=
  mem_foldl_pathSetAdd

theorem isRequired_iff :
    isRequired decl names = true ↔ ∃ name ∈ names, getDeclarationName decl = some name := by
  unfold isRequired
  cases hName : getDeclarationName decl with
  | none => simp
  | some name => simp

-- ---
-- A closure in progress
-- ---

/-- Declaration `i` uses a name that resolves to declaration `j`. -/
def LeadsTo (declarations : List Tree) (resolve : Text → Nat → Prop) (i j : Nat) : Prop :=
  ∃ decl name, declarations[i]? = some decl ∧ name ∈ calledNames decl ∧ resolve name j

/-- What is included before any declaration was collected. -/
def Firsts (start : Set Nat) (names : List Text) (resolve : Text → Nat → Prop) : Set Nat :=
  {j | j ∈ start ∨ ∃ name ∈ names, resolve name j}

variable {j : Nat} {declarations : List Tree} {seeds : List Text} {start : Set Nat}

section Progress

variable {resolve : Text → Nat → Prop} {pending : List Nat} {flags : List Bool} {names : List Text}

structure Progress (declarations : List Tree) (start : Set Nat) (seeds : List Text)
    (resolve : Text → Nat → Prop) (pending : List Nat) (flags : List Bool)
    (names : List Text) : Prop where
  length : flags.length = declarations.length
  sound : included flags ⊆ Reached (Firsts start seeds resolve) (LeadsTo declarations resolve)
  origin : ∀ name ∈ names, name ∈ seeds ∨ ∃ i decl,
    i ∈ Reached (Firsts start seeds resolve) (LeadsTo declarations resolve) ∧
      declarations[i]? = some decl ∧ name ∈ calledNames decl
  first : start ⊆ included flags
  seeded : ∀ name ∈ seeds, name ∈ names
  done : ∀ i ∈ included flags, i ∉ pending → ∀ decl, declarations[i]? = some decl →
    ∀ name ∈ calledNames decl, name ∈ names

def Resolved (resolve : Text → Nat → Prop) (names : List Text) (flags : List Bool) : Prop :=
  ∀ name ∈ names, ∀ j, resolve name j → j ∈ included flags

theorem included_set {k : Nat} (h : flags[j]? = some false) :
    k ∈ included (flags.set j true) ↔ k = j ∨ k ∈ included flags := by
  have hj : j < flags.length := (List.getElem_of_getElem? h).1
  unfold included
  by_cases hSame : j = k
  · subst hSame
    simp [hj]
  · simp [hSame, Ne.symm hSame]

theorem Progress.include (h : Progress declarations start seeds resolve pending flags names)
    (hName : name ∈ names) (hResolve : resolve name j) (hNew : flags[j]? = some false) :
    Progress declarations start seeds resolve (j :: pending) (flags.set j true) names where
  length := by rw [length_set, h.length]
  sound k hk := by
    rcases (included_set hNew).mp hk with rfl | hk
    · rcases h.origin name hName with hSeed | ⟨i, decl, hi, hDecl, hCalled⟩
      · exact subset_reached (.inr ⟨name, hSeed, hResolve⟩)
      · exact reached_step hi ⟨decl, name, hDecl, hCalled, hResolve⟩
    · exact h.sound hk
  origin := h.origin
  first k hk := (included_set hNew).mpr (.inr (h.first hk))
  seeded := h.seeded
  done i hi hPending := by
    rw [mem_cons, not_or] at hPending
    rcases (included_set hNew).mp hi with rfl | hi
    · exact absurd rfl hPending.1
    · exact h.done i hi hPending.2

theorem Progress.collect (h : Progress declarations start seeds resolve (j :: pending) flags names)
    (hj : j ∈ included flags) (hDecl : declarations[j]? = some decl) :
    Progress declarations start seeds resolve pending flags
      (collectCalledFunctionNames decl names) where
  length := h.length
  sound := h.sound
  origin name hName := by
    rcases mem_collectCalledFunctionNames.mp hName with hOld | hNew
    · exact h.origin name hOld
    · exact .inr ⟨j, decl, h.sound hj, hDecl, hNew⟩
  first := h.first
  seeded name hName := mem_collectCalledFunctionNames.mpr (.inl (h.seeded name hName))
  done i hi hPending d hd name hName := by
    refine mem_collectCalledFunctionNames.mpr ?_
    by_cases hSame : i = j
    · subst hSame
      rw [hDecl] at hd
      cases hd
      exact .inr hName
    · exact .inl (h.done i hi (by simp [hSame, hPending]) d hd name hName)

theorem Progress.included_eq (h : Progress declarations start seeds resolve [] flags names)
    (hResolved : Resolved resolve names flags) :
    included flags = Reached (Firsts start seeds resolve) (LeadsTo declarations resolve) := by
  refine Set.Subset.antisymm h.sound (reached_subset ⟨?_, ?_⟩)
  · rintro j (hStart | ⟨name, hName, hResolve⟩)
    · exact h.first hStart
    · exact hResolved name (h.seeded name hName) j hResolve
  · rintro i hi j ⟨decl, name, hDecl, hName, hResolve⟩
    exact hResolved name (h.done i hi not_mem_nil decl hDecl name hName) j hResolve

end Progress

-- ---
-- Scanning
-- ---

def ByName (declarations : List Tree) (name : Text) (j : Nat) : Prop :=
  ∃ decl, declarations[j]? = some decl ∧ getDeclarationName decl = some name

variable {flags : List Bool}

theorem count_set_true (h : flags[j]? = some false) :
    (flags.set j true).count false + 1 = flags.count false := by
  obtain ⟨hj, hFlag⟩ := List.getElem_of_getElem? h
  have hPos : 0 < flags.count false := List.count_pos_iff.mpr (hFlag ▸ List.getElem_mem hj)
  rw [List.count_set hj, hFlag]
  simp only [beq_self_eq_true, if_true, show (true == false) = false from rfl,
    Bool.false_eq_true, if_false]
  omega

section Scanning

theorem scanStep_cases (s : ClosureScan) (j : Nat) :
    (scanStep declarations s j = s ∧ (s.includeFlags.length = declarations.length →
      ∀ name ∈ s.requiredNames, ByName declarations name j → j ∈ included s.includeFlags)) ∨
    ∃ decl name, declarations[j]? = some decl ∧ name ∈ s.requiredNames ∧
      getDeclarationName decl = some name ∧ s.includeFlags[j]? = some false ∧
      scanStep declarations s j = ⟨s.includeFlags.set j true,
        collectCalledFunctionNames decl s.requiredNames, true⟩ := by
  unfold scanStep
  cases hDecl : declarations[j]? with
  | none =>
    refine .inl ⟨rfl, ?_⟩
    rintro - name - ⟨decl, hGet, -⟩
    rw [hDecl] at hGet
    cases hGet
  | some decl =>
    cases hFlag : s.includeFlags[j]? with
    | none =>
      refine .inl ⟨rfl, fun hLength => ?_⟩
      have hj := (List.getElem_of_getElem? hDecl).1
      rw [getElem?_eq_none_iff] at hFlag
      omega
    | some flag =>
      cases flag with
      | true => exact .inl ⟨rfl, fun _ _ _ _ => hFlag⟩
      | false =>
        dsimp only
        by_cases hRequired : isRequired decl s.requiredNames = true
        · obtain ⟨name, hName, hDeclares⟩ := isRequired_iff.mp hRequired
          rw [if_pos hRequired]
          exact .inr ⟨decl, name, rfl, hName, hDeclares, rfl, rfl⟩
        · rw [if_neg hRequired]
          refine .inl ⟨rfl, ?_⟩
          rintro - name hName ⟨decl', hGet, hDeclares⟩
          rw [hDecl] at hGet
          cases hGet
          exact absurd (isRequired_iff.mpr ⟨name, hName, hDeclares⟩) hRequired

theorem foldl_scanStep (js : List Nat) (s : ClosureScan)
    (h : Progress declarations start seeds (ByName declarations) [] s.includeFlags
      s.requiredNames) :
    Progress declarations start seeds (ByName declarations) []
        (js.foldl (scanStep declarations) s).includeFlags
        (js.foldl (scanStep declarations) s).requiredNames ∧
      ((js.foldl (scanStep declarations) s).changed = false →
        js.foldl (scanStep declarations) s = s ∧ ∀ j ∈ js, ∀ name ∈ s.requiredNames,
          ByName declarations name j → j ∈ included s.includeFlags) ∧
      (js.foldl (scanStep declarations) s = s ∨
        (js.foldl (scanStep declarations) s).includeFlags.count false <
          s.includeFlags.count false) := by
  induction js generalizing s with
  | nil => exact ⟨h, fun _ => ⟨rfl, fun j hj => absurd hj not_mem_nil⟩, .inl rfl⟩
  | cons j js ih =>
    rw [foldl_cons]
    rcases @scanStep_cases declarations s j with ⟨hSame, hSettled⟩ |
      ⟨decl, name, hDecl, hName, hDeclares, hFlag, hStep⟩
    · rw [hSame]
      obtain ⟨hProgress, hUnchanged, hCount⟩ := ih s h
      refine ⟨hProgress, fun hChanged => ?_, hCount⟩
      obtain ⟨hResult, hOthers⟩ := hUnchanged hChanged
      exact ⟨hResult, forall_mem_cons.mpr ⟨hSettled h.length, hOthers⟩⟩
    · rw [hStep]
      have hNext : Progress declarations start seeds (ByName declarations) []
          (s.includeFlags.set j true) (collectCalledFunctionNames decl s.requiredNames) :=
        (h.include hName ⟨decl, hDecl, hDeclares⟩ hFlag).collect
          ((included_set hFlag).mpr (.inl rfl)) hDecl
      obtain ⟨hProgress, hUnchanged, hCount⟩ := ih ⟨s.includeFlags.set j true,
        collectCalledFunctionNames decl s.requiredNames, true⟩ hNext
      have hOne := count_set_true hFlag
      refine ⟨hProgress, fun hChanged => ?_, .inr ?_⟩
      · -- a change is never undone
        obtain ⟨hResult, -⟩ := hUnchanged hChanged
        rw [hResult] at hChanged
        cases hChanged
      · rcases hCount with hResult | hLess
        · rw [hResult]
          dsimp only
          omega
        · dsimp only at hLess
          omega

theorem scanLoop_spec {rounds : Nat}
    (h : Progress declarations start seeds (ByName declarations) [] flags names)
    (hRounds : flags.count false < rounds) :
    ∃ result, scanLoop declarations rounds flags names = some result ∧
      result.length = declarations.length ∧ included result =
        Reached (Firsts start seeds (ByName declarations))
          (LeadsTo declarations (ByName declarations)) := by
  induction rounds generalizing flags names with
  | zero => omega
  | succ rounds ih =>
    obtain ⟨hProgress, hUnchanged, hCount⟩ :=
      foldl_scanStep (range declarations.length) ⟨flags, names, false⟩ h
    rw [scanLoop]
    change Progress _ _ _ _ _ (scan declarations flags names).includeFlags _ at hProgress
    change (scan declarations flags names).changed = false → _ at hUnchanged
    change scan declarations flags names = _ ∨ (scan declarations flags names).includeFlags.count
      false < _ at hCount
    cases hChanged : (scan declarations flags names).changed with
    | true =>
      rcases hCount with hSame | hLess
      · rw [hSame] at hChanged
        cases hChanged
      · exact ih hProgress (by dsimp only at hLess; omega)
    | false =>
      obtain ⟨hSame, hSettled⟩ := hUnchanged hChanged
      have hFlags : (scan declarations flags names).includeFlags = flags :=
        congrArg ClosureScan.includeFlags hSame
      rw [hFlags]
      refine ⟨flags, rfl, h.length, h.included_eq fun name hName j hResolve => ?_⟩
      obtain ⟨decl, hDecl, hDeclares⟩ := hResolve
      exact hSettled j (List.mem_range.mpr (List.getElem_of_getElem? hDecl).1) name hName
        ⟨decl, hDecl, hDeclares⟩

end Scanning

/-- **Selected names.** -/
theorem selectedClosure_spec (selectedNames : List Text) (declarations : List Tree) :
    ∃ flags, selectedClosure selectedNames declarations = some flags ∧
      flags.length = declarations.length ∧ included flags =
        Reached (Firsts ∅ selectedNames (ByName declarations))
          (LeadsTo declarations (ByName declarations)) := by
  have hStart : Progress declarations ∅ selectedNames (ByName declarations) []
      (declarations.map fun _ => false) (selectedNames.foldl pathSetAdd []) := by
    have hNone : ∀ j, j ∉ included (declarations.map fun _ => false) := by
      intro j hj
      obtain ⟨_, hFlag⟩ := List.getElem_of_getElem? hj
      rw [List.getElem_map] at hFlag
      cases hFlag
    refine ⟨List.length_map _, fun j hj => absurd hj (hNone j), fun name hName => ?_,
      Set.empty_subset _, fun name hName => ?_, fun i hi => absurd hi (hNone i)⟩
    · rw [mem_foldl_pathSetAdd] at hName
      exact .inl (hName.resolve_left List.not_mem_nil)
    · exact mem_foldl_pathSetAdd.mpr (.inr hName)
  obtain ⟨hProgress, -, -⟩ := foldl_scanStep (List.range declarations.length)
    ⟨declarations.map fun _ => false, selectedNames.foldl pathSetAdd [], false⟩ hStart
  refine scanLoop_spec hProgress ?_
  have hLength := hProgress.length
  exact Nat.lt_succ_of_le (hLength ▸ List.count_le_length)

-- ---
-- The worklist
-- ---

def ByFirst (declarations : List Tree) (name : Text) (j : Nat) : Prop :=
  firstDeclaration declarations name = some j

section Worklist

variable {get : Text → Option (Option Nat)}

theorem unlock_spec (hGet : ∀ name, get name = some (firstDeclaration declarations name))
    (fresh : List Text) (hFresh : ∀ name ∈ fresh, name ∈ names) {worklist : List Nat}
    (h : Progress declarations start seeds (ByFirst declarations) worklist flags names)
    (hWork : ∀ j ∈ worklist, j ∈ included flags) :
    ∃ flags' worklist', unlock get fresh flags worklist = some (flags', worklist') ∧
      Progress declarations start seeds (ByFirst declarations) worklist' flags' names ∧
      (∀ j ∈ worklist', j ∈ included flags') ∧ included flags ⊆ included flags' ∧
      Resolved (ByFirst declarations) fresh flags' ∧
      worklist'.length + flags'.count false = worklist.length + flags.count false := by
  induction fresh generalizing flags worklist with
  | nil =>
    exact ⟨flags, worklist, rfl, h, hWork, subset_rfl,
      fun name hName => absurd hName not_mem_nil, rfl⟩
  | cons name fresh ih =>
    rw [forall_mem_cons] at hFresh
    rw [unlock, hGet, bind_some]
    cases hFirst : firstDeclaration declarations name with
    | none =>
      obtain ⟨flags', worklist', hUnlock, hProgress, hWork', hMore, hResolved, hCount⟩ :=
        ih hFresh.2 h hWork
      refine ⟨flags', worklist', hUnlock, hProgress, hWork', hMore, ?_, hCount⟩
      refine forall_mem_cons.mpr ⟨fun j hResolve => ?_, hResolved⟩
      rw [ByFirst, hFirst] at hResolve
      cases hResolve
    | some target =>
      dsimp only
      by_cases hFlag : flags[target]? = some false
      · rw [if_pos hFlag]
        have hWorkNext : ∀ j ∈ target :: worklist, j ∈ included (flags.set target true) :=
          forall_mem_cons.mpr ⟨(included_set hFlag).mpr (.inl rfl),
            fun j hj => (included_set hFlag).mpr (.inr (hWork j hj))⟩
        obtain ⟨flags', worklist', hUnlock, hProgress, hWork', hMore, hResolved, hCount⟩ :=
          ih hFresh.2 (h.include hFresh.1 hFirst hFlag) hWorkNext
        have hOne := count_set_true hFlag
        refine ⟨flags', worklist', hUnlock, hProgress, hWork',
          fun j hj => hMore ((included_set hFlag).mpr (.inr hj)), ?_, ?_⟩
        · refine forall_mem_cons.mpr ⟨fun j hResolve => ?_, hResolved⟩
          rw [ByFirst, hFirst] at hResolve
          cases hResolve
          exact hMore (hWorkNext target mem_cons_self)
        · rw [length_cons] at hCount
          omega
      · rw [if_neg hFlag]
        obtain ⟨flags', worklist', hUnlock, hProgress, hWork', hMore, hResolved, hCount⟩ :=
          ih hFresh.2 h hWork
        refine ⟨flags', worklist', hUnlock, hProgress, hWork', hMore, ?_, hCount⟩
        refine forall_mem_cons.mpr ⟨fun j hResolve => ?_, hResolved⟩
        rw [ByFirst, hFirst] at hResolve
        cases hResolve
        -- the flag is there, and it is not `false`
        have hj : target < flags.length := by
          rw [h.length]
          exact (findIdx?_eq_some_iff_getElem.mp hFirst).1
        refine hMore ?_
        rw [getElem?_eq_getElem hj] at hFlag
        unfold included
        rw [Set.mem_ofPred_eq, getElem?_eq_getElem hj]
        cases hBit : flags[target] with
        | true => rfl
        | false => exact absurd (by rw [hBit]) hFlag

theorem exportLoop_spec (hGet : ∀ name, get name = some (firstDeclaration declarations name))
    {rounds : Nat} {worklist : List Nat}
    (h : Progress declarations start seeds (ByFirst declarations) worklist flags names)
    (hWork : ∀ j ∈ worklist, j ∈ included flags)
    (hResolved : Resolved (ByFirst declarations) names flags)
    (hRounds : worklist.length + flags.count false < rounds) :
    ∃ result, exportLoop get declarations rounds flags names worklist = some result ∧
      result.length = declarations.length ∧ included result =
        Reached (Firsts start seeds (ByFirst declarations))
          (LeadsTo declarations (ByFirst declarations)) := by
  induction rounds generalizing flags names worklist with
  | zero => omega
  | succ rounds ih =>
    cases worklist with
    | nil => exact ⟨flags, rfl, h.length, h.included_eq hResolved⟩
    | cons j worklist =>
      rw [List.forall_mem_cons] at hWork
      obtain ⟨decl, hDecl⟩ : ∃ decl, declarations[j]? = some decl := by
        have hj := (List.getElem_of_getElem? hWork.1).1
        rw [h.length] at hj
        exact ⟨_, List.getElem?_eq_getElem hj⟩
      obtain ⟨fresh, hFold, hNames⟩ := foldl_pathSetAdd names (calledNames decl)
      have hCollect : collectCalledFunctionNames decl names = names ++ fresh := hFold
      obtain ⟨flags', worklist', hUnlock, hProgress, hWork', hMore, hFresh, hCount⟩ :=
        unlock_spec hGet fresh (fun name hName => by
          rw [hCollect]
          exact List.mem_append_right names hName) (h.collect hWork.1 hDecl) hWork.2
      rw [exportLoop, hDecl]
      dsimp only
      rw [hCollect, List.drop_left, hUnlock, Option.bind_some]
      rw [hCollect] at hProgress
      refine ih hProgress hWork' ?_ ?_
      · intro name hName k hResolve
        rcases List.mem_append.mp hName with hOld | hNew
        · exact hMore (hResolved name hOld k hResolve)
        · exact hFresh name hNew k hResolve
      · rw [List.length_cons] at hRounds
        dsimp only
        omega

end Worklist

def exported (declarations : List Tree) : Set Nat :=
  {j | ∃ decl, declarations[j]? = some decl ∧ isDeclarationExported decl = true}

theorem included_map_exported (declarations : List Tree) :
    included (declarations.map isDeclarationExported) = exported declarations := by
  ext j
  simp [included, exported]

theorem mem_exportedIndices : j ∈ exportedIndices declarations ↔ j ∈ exported declarations := by
  unfold exportedIndices exported
  cases hDecl : declarations[j]? with
  | none => simp [hDecl]
  | some decl =>
    obtain ⟨hj, hGet⟩ := List.getElem_of_getElem? hDecl
    simp [hj, hGet]

theorem length_exportedIndices (declarations : List Tree) : (exportedIndices declarations).length +
      (declarations.map isDeclarationExported).count false = declarations.length := by
  induction declarations using reverseRecOn with
  | nil => rfl
  | append_singleton declarations d ih =>
    have hFront : (range declarations.length).filter
        (fun j => (declarations ++ [d])[j]?.any isDeclarationExported) =
          exportedIndices declarations := by
      refine filter_congr fun j hj => ?_
      rw [getElem?_append_left (mem_range.mp hj)]
    have hIndices : exportedIndices (declarations ++ [d]) = exportedIndices declarations ++
        if isDeclarationExported d then [declarations.length] else [] := by
      rw [exportedIndices, length_append, length_singleton, range_succ,
        filter_append, hFront, filter_singleton]
      simp
    rw [hIndices, map_append, count_append, length_append, length_append, length_singleton]
    cases hExported : isDeclarationExported d <;>
      simp [hExported] <;> omega

/-- **Exported names.** -/
theorem exportClosure_spec (declarations : List Tree) :
    ∃ flags, exportClosure declarations = some flags ∧ flags.length = declarations.length ∧
      included flags = Reached (exported declarations)
        (LeadsTo declarations (ByFirst declarations)) := by
  obtain ⟨nameMap, hMap, hGet⟩ := declNameMapGet_eq declarations
  have hFirsts : Firsts (exported declarations) [] (ByFirst declarations) =
      exported declarations := by
    ext j
    simp [Firsts]
  have hStart : Progress declarations (exported declarations) [] (ByFirst declarations)
      (exportedIndices declarations).reverse (declarations.map isDeclarationExported) [] := by
    rw [← included_map_exported] at *
    refine ⟨length_map _, ?_, fun name hName => absurd hName not_mem_nil, subset_rfl,
      fun name hName => absurd hName not_mem_nil, fun i hi hPending => ?_⟩
    · rw [hFirsts]
      exact subset_reached
    · rw [mem_reverse, mem_exportedIndices, ← included_map_exported] at hPending
      exact absurd hi hPending
  rw [exportClosure, hMap, bind_some, ← hFirsts]
  refine exportLoop_spec hGet hStart ?_ (fun name hName => absurd hName not_mem_nil) ?_
  · intro j hj
    rw [included_map_exported]
    exact mem_exportedIndices.mp (mem_reverse.mp hj)
  · rw [length_reverse, length_exportedIndices]
    exact Nat.lt_succ_self _

theorem mem_collected {decls : List Tree} :
    name ∈ decls.foldl (fun names decl => collectCalledFunctionNames decl names) [] ↔
      ∃ decl ∈ decls, name ∈ calledNames decl := by
  induction decls using reverseRecOn with
  | nil => simp
  | append_singleton decls decl ih =>
    rw [foldl_append, foldl_cons, foldl_nil, mem_collectCalledFunctionNames, ih]
    simp [or_and_right, exists_or]

theorem rescannedExports_spec (declarations : List Tree) :
    ∃ flags, rescannedExports declarations = some flags ∧
      flags.length = declarations.length ∧ included flags = Reached (exported declarations)
        (LeadsTo declarations (ByName declarations)) := by
  have hFirsts : Firsts (exported declarations) [] (ByName declarations) =
      exported declarations := by
    ext j
    simp [Firsts]
  rw [rescannedExports, ← hFirsts]
  refine scanLoop_spec ⟨length_map _, ?_, fun name hName => ?_, ?_,
    fun name hName => absurd hName not_mem_nil, fun i hi _ decl hDecl name hName => ?_⟩
    (Nat.lt_succ_of_le ?_)
  · rw [included_map_exported, hFirsts]
    exact subset_reached
  · obtain ⟨decl, hDecl, hCalled⟩ := mem_collected.mp hName
    rw [mem_filter] at hDecl
    obtain ⟨i, hi, hGet⟩ := getElem_of_mem hDecl.1
    have hAt : declarations[i]? = some decl := by rw [getElem?_eq_getElem hi, hGet]
    exact .inr ⟨i, decl, subset_reached (.inl ⟨decl, hAt, hDecl.2⟩), hAt, hCalled⟩
  · rw [included_map_exported]
  · rw [included_map_exported] at hi
    obtain ⟨decl', hAt, hExported⟩ := hi
    rw [hDecl] at hAt
    cases hAt
    exact mem_collected.mpr ⟨decl, mem_filter.mpr ⟨mem_of_getElem? hDecl, hExported⟩, hName⟩
  · have hCount := length_exportedIndices declarations
    omega

-- ---
-- What is found and what is needed
-- ---

theorem visited_subset {α : Type} {data : NodeData} {cs : List α} {a : α}
    (h : a ∈ visited data cs) : a ∈ cs := by
  unfold visited at h
  split at h
  all_goals first
    | exact h
    | exact mem_of_mem_take h
    | exact absurd h not_mem_nil
    | skip
  all_goals
    rcases mem_append.mp h with hLast | hFront
    · exact mem_of_getLast? (mem_toList.mp hLast)
    · exact dropLast_subset _ hFront

theorem calledName_subset {data : NodeData} (h : name ∈ calledName data) : name ∈ namesIn data := by
  unfold calledName at h
  split at h
  · split at h
    · exact absurd h not_mem_nil
    · exact h
  · split at h
    · exact absurd h not_mem_nil
    · rw [mem_singleton] at h
      exact h ▸ mem_cons_self
  · exact absurd h not_mem_nil

theorem mem_calledNamesAll {ts : List Tree} :
    names ∈ calledNamesAll ts ↔ ∃ t ∈ ts, calledNames t = names := by
  induction ts with
  | nil => simp [calledNamesAll]
  | cons t ts ih => simp [calledNamesAll, ih, eq_comm]

theorem calledNames_subset (t : Tree) : ∀ name ∈ calledNames t, name ∈ references t := by
  induction t using Tree.induct with
  | h data children ih =>
    intro name hName
    rw [calledNames, mem_append] at hName
    rw [references, Tree.collect, mem_append]
    rcases hName with hHere | hBelow
    · exact .inl (calledName_subset hHere)
    · obtain ⟨names, hNames, hMem⟩ := mem_flatten.mp hBelow
      obtain ⟨c, hc, rfl⟩ := mem_calledNamesAll.mp (visited_subset hNames)
      exact .inr (Tree.mem_collectAll.mpr ⟨c, hc, ih c hc name hMem⟩)

theorem byFirst_byName (h : ByFirst declarations name j) : ByName declarations name j := by
  obtain ⟨hj, hName, -⟩ := findIdx?_eq_some_iff_getElem.mp h
  exact ⟨_, getElem?_eq_getElem hj, eq_of_beq hName⟩

theorem leadsTo_refersTo {i : Nat} (h : LeadsTo declarations (ByName declarations) i j)
    : RefersTo declarations i j := by
  obtain ⟨decl, name, hDecl, hCalled, target, hTarget, hName⟩ := h
  refine ⟨decl, target, name, hDecl, hTarget, calledNames_subset decl name hCalled, ?_⟩
  refine mem_append_left _ ?_
  rw [hName]
  exact mem_singleton.mpr rfl

section

variable (selectedNames : List Text) (declarations : List Tree)

def KeptFirst : Set Nat := {j | ∃ decl, declarations[j]? = some decl ∧
  ((∃ name ∈ selectedNames, getDeclarationName decl = some name) ∨
    selectedNames = [] ∧ (isDeclarationExported decl = true ∨
      declarations.any isDeclarationExported = false))}

def NameLeadsTo (name : Text) (j : Nat) : Prop :=
  if selectedNames = [] then ByFirst declarations name j else ByName declarations name j

def Needed : Set Nat := Reached (Wanted selectedNames declarations) (RefersTo declarations)

def FoundByNames : Set Nat := Reached (KeptFirst selectedNames declarations)
  (LeadsTo declarations (NameLeadsTo selectedNames declarations))

variable {selectedNames declarations}

theorem nameLeadsTo_byName (h : NameLeadsTo selectedNames declarations name j)
    : ByName declarations name j := by
  unfold NameLeadsTo at h
  split at h
  · exact byFirst_byName h
  · exact h

theorem foundByNames_subset :
    FoundByNames selectedNames declarations ⊆ Needed selectedNames declarations := by
  refine reached_mono ?_ fun i j => ?_
  · rintro j ⟨decl, hDecl, hFirst⟩
    refine subset_reached ⟨decl, hDecl, hFirst.imp_left ?_⟩
    rintro ⟨name, hName, hDeclares⟩
    refine ⟨name, ?_, hDeclares⟩
    rwa [wantedNames, if_neg (ne_nil_of_mem hName)]
  · rintro ⟨decl, name, hDecl, hCalled, hResolve⟩
    exact leadsTo_refersTo ⟨decl, name, hDecl, hCalled, nameLeadsTo_byName hResolve⟩

/-- **What is included.** -/
theorem includedDeclarations_spec (selectedNames : List Text) (declarations : List Tree) :
    ∃ flags, includedDeclarations selectedNames declarations = some flags ∧
      flags.length = declarations.length ∧
      included flags = FoundByNames selectedNames declarations := by
  unfold includedDeclarations
  by_cases hSelected : selectedNames = []
  · subst hSelected
    have hLeads : NameLeadsTo [] declarations = ByFirst declarations := by
      funext name j
      exact if_pos rfl
    by_cases hAny : declarations.any isDeclarationExported = true
    · rw [if_pos hAny]
      have hFirst : KeptFirst [] declarations = exported declarations := by
        ext j
        simp [KeptFirst, exported, hAny]
      rw [FoundByNames, hFirst, hLeads]
      exact exportClosure_spec declarations
    · rw [if_neg hAny]
      refine ⟨_, rfl, length_map _, ?_⟩
      -- everything is kept for itself
      have hFirst : ∀ j, j ∈ KeptFirst [] declarations ↔ j < declarations.length := by
        intro j
        constructor
        · rintro ⟨decl, hDecl, -⟩
          exact (List.getElem_of_getElem? hDecl).1
        · intro hj
          exact ⟨_, getElem?_eq_getElem hj, .inr ⟨rfl, .inr (Bool.eq_false_iff.mpr hAny)⟩⟩
      ext j
      rw [included, Set.mem_ofPred_eq, getElem?_map]
      constructor
      · intro h
        cases hDecl : declarations[j]? with
        | none => simp [hDecl] at h
        | some decl =>
          exact subset_reached ((hFirst j).mpr (List.getElem_of_getElem? hDecl).1)
      · intro h
        have hIn := reached_subset (s := {j | j < declarations.length})
          ⟨fun k hk => (hFirst k).mp hk, fun a _ b hLeadsTo => by
            obtain ⟨decl, name, -, -, hResolve⟩ := hLeadsTo
            obtain ⟨target, hTarget, -⟩ := nameLeadsTo_byName hResolve
            exact (List.getElem_of_getElem? hTarget).1⟩ h
        rw [getElem?_eq_getElem hIn]
        rfl
  · rw [if_pos hSelected]
    have hLeads : NameLeadsTo selectedNames declarations = ByName declarations := by
      funext name j
      exact if_neg hSelected
    have hFirst : KeptFirst selectedNames declarations =
        Firsts ∅ selectedNames (ByName declarations) := by
      ext j
      simp only [KeptFirst, Firsts, ByName, hSelected, false_and, or_false, Set.mem_ofPred_eq,
        Set.mem_empty_iff_false, false_or]
      constructor
      · rintro ⟨decl, hDecl, name, hName, hDeclares⟩
        exact ⟨name, hName, decl, hDecl, hDeclares⟩
      · rintro ⟨name, hName, decl, hDecl, hDeclares⟩
        exact ⟨decl, hDecl, name, hName, hDeclares⟩
    rw [FoundByNames, hFirst, hLeads]
    exact selectedClosure_spec selectedNames declarations

theorem flags_eq {flags' : List Bool} (hLength : flags.length = flags'.length)
    (h : included flags = included flags') : flags = flags' := by
  refine ext_getElem hLength fun j hj hj' => ?_
  have hAt := Set.ext_iff.mp h j
  unfold included at hAt
  rw [Set.mem_ofPred_eq, Set.mem_ofPred_eq, getElem?_eq_getElem hj,
    getElem?_eq_getElem hj', some.injEq, some.injEq] at hAt
  exact Bool.eq_iff_iff.mpr hAt

/-- **An import keeps what it should** if and only if everything needed is found through
the names that the collector sees. -/
theorem kept_exact_iff (selectedNames : List Text) (declarations : List Tree) :
    KeptExactly selectedNames declarations ↔
      Needed selectedNames declarations ⊆ FoundByNames selectedNames declarations := by
  obtain ⟨flags, hFlags, hLength, hFound⟩ := includedDeclarations_spec selectedNames declarations
  constructor
  · rintro ⟨flags', hFlags', hLeast, -⟩
    rw [hFlags] at hFlags'
    cases hFlags'
    rw [isLeast_iff] at hLeast
    rw [← hFound, hLeast]
    rfl
  · intro hNeeded
    have hSame := Set.Subset.antisymm foundByNames_subset hNeeded
    refine ⟨flags, hFlags, isLeast_iff.mpr (hFound.trans hSame), fun hExports hAny => ?_⟩
    subst hExports
    obtain ⟨flags', hFlags', hLength', hRescanned⟩ := rescannedExports_spec declarations
    rw [hFlags', some.injEq]
    refine flags_eq (hLength'.trans hLength.symm) ?_
    rw [hRescanned, hFound]
    -- scanning again finds no less than the worklist and nothing that is not needed
    have hExported : exported declarations ⊆ KeptFirst [] declarations := by
      rintro j ⟨decl, hDecl, hIs⟩
      exact ⟨decl, hDecl, .inr ⟨rfl, .inl hIs⟩⟩
    have hFirst : KeptFirst [] declarations ⊆ exported declarations := by
      rintro j ⟨decl, hDecl, ⟨name, hName, -⟩ | ⟨-, hIs | hNone⟩⟩
      · exact absurd hName not_mem_nil
      · exact ⟨decl, hDecl, hIs⟩
      · rw [hAny] at hNone
        cases hNone
    refine Set.Subset.antisymm ?_ (reached_mono (hFirst.trans subset_reached) ?_)
    · rw [hSame]
      refine reached_mono ?_ fun i j h => leadsTo_refersTo h
      exact hExported.trans (subset_reached.trans foundByNames_subset)
    · rintro i j ⟨decl, name, hDecl, hCalled, hResolve⟩
      exact ⟨decl, name, hDecl, hCalled, nameLeadsTo_byName hResolve⟩

end

def plainFunction (name : Text) (isExported : Bool) (body : List Tree) : Tree :=
  .node (.functionDeclaration
    { name := name, parameterNames := [], parameterTypes := [], returnType := none,
      isExported := isExported }) body

/-- `export function f() { defer h(); } function h() {}` -/
def deferredCall : List Tree :=
  [plainFunction "f".toList true [.node .program [.node .deferStatement
      [.node (.functionCall "h".toList [] false) []]]],
    plainFunction "h".toList false [.node .program []]]

/-- `export function f() { h(); } function h(); function h() {}` -/
def forwardDeclared : List Tree :=
  [plainFunction "f".toList true [.node .program [.node (.functionCall "h".toList [] false) []]],
    plainFunction "h".toList false [], plainFunction "h".toList false [.node .program []]]

/-- The first loses the function that is called when `f` returns, the second the
definition behind the forward declaration. -/
theorem not_keptExactly : ¬KeptExactly [] deferredCall ∧ ¬KeptExactly [] forwardDeclared := by
  constructor
  · rintro ⟨flags, hFlags, hLeast, -⟩
    have hIncluded : includedDeclarations [] deferredCall = some [true, false] := by
      decide
    rw [hIncluded, some.injEq] at hFlags
    subst hFlags
    have hFirst : 0 ∈ Wanted [] deferredCall := ⟨_, rfl, .inr ⟨rfl, .inl rfl⟩⟩
    have hRefers : RefersTo deferredCall 0 1 :=
      ⟨_, _, "h".toList, rfl, rfl, by decide, by decide⟩
    have hKept := hLeast.1.2 0 (hLeast.1.1 hFirst) 1 hRefers
    exact absurd hKept (by simp [included])
  · rintro ⟨flags, hFlags, -, hRescanned⟩
    have hScanned : rescannedExports forwardDeclared = some [true, true, true] := by
      decide
    have hSame := hRescanned rfl (by decide)
    rw [hScanned, ← hFlags] at hSame
    revert hSame
    decide

end Mettle.Semantic
