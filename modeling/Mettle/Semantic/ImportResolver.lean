import Mathlib.Data.Finset.Card
import Mettle.Semantic.EmbeddedFiles
import Mettle.Semantic.ExportClosure

/-!
# Mettle — the import resolver

`process_imports_recursive` (`import_resolver.c`) puts the declarations of each imported file in the
place of the import. A file that is being imported is active, and an import of it is skipped. What
the files are, what the renaming of a namespaced import makes of declarations and which requests for
memory are granted is given. A call takes the depth of calls that it may still make and is `none`
when it would go deeper.
-/

namespace Mettle.Semantic.Imports

open Mettle.Lib Mettle.Lexing Mettle.Parser List

-- ---
-- The resolver
-- ---

/-- What memory is asked for. The array of declarations grows for a declaration of the file itself or
for one of an import. -/
inductive Request
  | activeFile | chainEntry | sourceContext | childContext | includeFlags | rewrites
  | importedDeclaration | ownDeclaration | resolvedFile | children
  deriving DecidableEq

/-- What the files give. -/
structure Input where
  /-- The canonical path of a module that is named in a file. -/
  resolveImportPath : Text → Text → Option Text
  readFileContent : Text → Option Text
  /-- The declarations of a source, unless it has an error. -/
  parseProgram : Text → Text → Option (List Tree)
  /-- `rewrite_program_names` for the included declarations and a namespace alias. -/
  rewriteNames : Text → List Bool → List Tree → List Tree
  /-- `rewrite_program_names` for the bindings of the namespaces. -/
  rewriteBindings : List Text → List Tree → List Tree
  /-- Whether the request, the `n`th of all, is granted. -/
  granted : Request → Nat → Bool

/-- The array of declarations can grow for each declaration of an import. -/
def Input.GrowsForImports (input : Input) : Prop :=
  ∀ n, input.granted .importedDeclaration n = true

/-- `ImportContext`, with `had_error` and the number of requests so far. -/
structure ImportContext where
  activeFiles : List Text
  importChain : List Text
  resolvedFiles : List Text
  hadError : Bool
  requests : Nat
  /-- The imports that were left by a `goto`, which the source does not count. -/
  abandoned : Nat

def ImportContext.failed (ctx : ImportContext) : ImportContext := { ctx with hadError := true }

/-- After a request that was granted, or was not. -/
def ImportContext.asked (ctx : ImportContext) (granted : Bool) : ImportContext :=
  { ctx with requests := ctx.requests + 1, hadError := ctx.hadError || !granted }

/-- `import_context_init_child`. -/
def ImportContext.child (ctx : ImportContext) : ImportContext := { ctx with resolvedFiles := [] }

/-- The locals of `process_imports_recursive`; `stopped` after the `goto process_imports_cleanup`. -/
structure Progress where
  ctx : ImportContext
  newDeclarations : List Tree := []
  newCapacity : Nat := 0
  namespaceBindings : List Text := []
  stopped : Bool := false

/-- A call for the declarations of a file, with what they become. -/
abbrev Resolver := ImportContext → List Tree → Text → Option (ImportContext × List Tree)

section

variable (input : Input) (recurse : Resolver)

local instance : LawfulBEq Text := inferInstance

/-- `ADD_DECL`. -/
def addDecl (request : Request) (s : Progress) (decl : Tree) : Progress :=
  if s.stopped then s
  else if s.newDeclarations.length < s.newCapacity then
    { s with newDeclarations := s.newDeclarations ++ [decl] }
  else
    let granted := input.granted request s.ctx.requests
    let ctx := s.ctx.asked granted
    if granted then
      { s with
        ctx, newCapacity := if s.newCapacity = 0 then 16 else s.newCapacity * 2
        newDeclarations := s.newDeclarations ++ [decl] }
    else { s with ctx, stopped := true }

/-- `include_all` and `include_flags`. -/
def includedFlags (ctx : ImportContext) (selectedNames : List Text) (declarations : List Tree) :
    Option (ImportContext × Bool × List Bool) :=
  let none_ := declarations.map fun _ => false
  if selectedNames = [] ∧ declarations.any isDeclarationExported = false then
    some (ctx, true, none_)
  else
    let granted := input.granted .includeFlags ctx.requests
    if granted then (includedDeclarations selectedNames declarations).map fun flags =>
      (ctx.asked granted, false, flags)
    else some (ctx.asked granted, true, none_)

/-- The declarations of an import, once the imports in it are processed: they are renamed when it has
a namespace, and those that are included are added. -/
def includeDeclarations (namespaceAlias : Option Text) (selectedNames : List Text)
    (declarations : List Tree) (s : Progress) : Option (Progress × Bool) :=
  (includedFlags input s.ctx selectedNames declarations).map fun (ctx, includeAll, flags) =>
    let granted := namespaceAlias = none || input.granted .rewrites ctx.requests
    let renamed := match namespaceAlias with
      | none => declarations
      | some name =>
        if granted then input.rewriteNames name (flags.map (includeAll || ·)) declarations
        else declarations
    let kept := (renamed.zip flags).filter fun d => granted && includeAll || d.2
    let bindings := if granted then namespaceAlias.toList else []
    let s := { s with
      ctx := if namespaceAlias = none then ctx else ctx.asked granted
      namespaceBindings := s.namespaceBindings ++ bindings }
    ((kept.map Prod.fst).foldl (addDecl input .importedDeclaration) s, granted)

/-- An import whose file is active, parsed and to be processed by `recurse`. With a namespace it is
processed in a child context, which is destroyed afterwards. -/
def importProgram (namespaceAlias : Option Text) (selectedNames : List Text) (path : Text)
    (declarations : List Tree) (s : Progress) : Option (Progress × Bool) :=
  let files := fun filePath =>
    (input.resolveImportPath path filePath).bind input.readFileContent
  let embed := processChildren files .program declarations.length 0
  if namespaceAlias = none then
    (recurse s.ctx declarations path).bind fun (ctx, declarations) =>
      let (declarations, hadError) := embed declarations
      includeDeclarations input namespaceAlias selectedNames declarations
        { s with ctx := { ctx with hadError := ctx.hadError || hadError } }
  else
    let granted := input.granted .childContext s.ctx.requests
    let ctx := s.ctx.asked granted
    if granted then
      (recurse ctx.child declarations path).bind fun (child, declarations) =>
        let (declarations, hadError) := embed declarations
        includeDeclarations input namespaceAlias selectedNames declarations
          { s with
            ctx := { ctx with hadError := child.hadError || hadError, requests := child.requests } }
    else some ({ s with ctx }, false)

/-- `path_set_remove` and `pop_import_chain`. -/
def ImportContext.leave (ctx : ImportContext) (path : Text) : ImportContext :=
  { ctx with activeFiles := ctx.activeFiles.erase path, importChain := ctx.importChain.dropLast }

/-- The import of a file that was read. It is active, and its name in the chain, meanwhile. -/
def importSource (namespaceAlias : Option Text) (selectedNames : List Text) (path source : Text)
    (s : Progress) : Option Progress :=
  let imported := match input.parseProgram path source with
    | none => some ({ s with ctx := s.ctx.failed }, false)
    | some declarations =>
      importProgram input recurse namespaceAlias selectedNames path declarations s
  imported.map fun (s, succeeded) =>
    let ctx := s.ctx.leave path
    let added := input.granted .resolvedFile ctx.requests
    -- the `goto` leaves the file active and its name in the chain
    if s.stopped then { s with ctx := { s.ctx with abandoned := s.ctx.abandoned + 1 } }
    else if ¬ (succeeded ∧ namespaceAlias = none ∧ selectedNames = []) then { s with ctx }
    else if added = false then { s with ctx := ctx.asked added }
    else
      let resolvedFiles := pathSetAdd ctx.resolvedFiles path
      { s with ctx := { ctx.asked added with resolvedFiles } }

/-- One import of a file. -/
def importModule (currentFilePath moduleName : Text) (namespaceAlias : Option Text)
    (selectedNames : List Text) (s : Progress) : Option Progress :=
  match input.resolveImportPath currentFilePath moduleName with
  | none => some { s with ctx := s.ctx.failed }
  | some path =>
    let tracked := input.granted .activeFile s.ctx.requests
    let ctx := s.ctx.asked tracked
    let pushed := input.granted .chainEntry ctx.requests
    let active := { ctx.asked pushed with activeFiles := ctx.activeFiles ++ [path] }
    let inChain := { active with importChain := active.importChain ++ [moduleName] }
    let registered := input.granted .sourceContext inChain.requests
    -- a circular import
    if path ∈ s.ctx.activeFiles then some s
    else if namespaceAlias = none ∧ selectedNames = [] ∧ path ∈ s.ctx.resolvedFiles then some s
    else if tracked = false then some { s with ctx }
    else if pushed = false then
      some { s with ctx := { active with activeFiles := active.activeFiles.erase path } }
    else match input.readFileContent path with
      | none => some { s with ctx := (inChain.leave path).failed }
      | some source =>
        let ctx := inChain.asked registered
        if registered = false then some { s with ctx := ctx.leave path }
        else importSource input recurse namespaceAlias selectedNames path source { s with ctx }

def processDeclaration (currentFilePath : Text) (s : Progress) : Tree → Option Progress
  | .node (.importDeclaration moduleName namespaceAlias selectedNames) _ =>
    importModule input recurse currentFilePath moduleName namespaceAlias selectedNames s
  | decl => some (addDecl input .ownDeclaration s decl)

def processDeclarations (currentFilePath : Text) : List Tree → Progress → Option Progress
  | [], s => some s
  | decl :: declarations, s => (processDeclaration input recurse currentFilePath s decl).bind fun s =>
    if s.stopped then some s else processDeclarations currentFilePath declarations s

/-- `process_imports_cleanup`. Without an array of children the function returns at once. -/
def cleanup (s : Progress) : ImportContext × List Tree :=
  let granted := s.newDeclarations = [] || input.granted .children s.ctx.requests
  let ctx := s.ctx.asked granted
  let rewritten := s.namespaceBindings = [] || input.granted .rewrites ctx.requests
  if !granted then (ctx, s.newDeclarations)
  else if !rewritten then (ctx.asked rewritten, s.newDeclarations)
  else (ctx.asked rewritten, input.rewriteBindings s.namespaceBindings s.newDeclarations)

/-- The imports of a file, with their own. -/
def processImportsRecursive : Nat → Resolver
  | 0 => fun _ _ _ => none
  | depth + 1 => fun ctx declarations currentFilePath =>
    (processDeclarations input (processImportsRecursive depth) currentFilePath declarations
      { ctx }).map (cleanup input)

end

-- ---
-- What a part of the resolver leaves
-- ---

section

variable {input : Input} {s : Progress} {request : Request} {namespaceAlias : Option Text}
  {selectedNames : List Text}

structure SameFiles (before after : ImportContext) : Prop where
  active : after.activeFiles = before.activeFiles
  chain : after.importChain = before.importChain
  abandoned : after.abandoned = before.abandoned

theorem SameFiles.trans {a b c : ImportContext} (h₁ : SameFiles a b) (h₂ : SameFiles b c) :
    SameFiles a c :=
  ⟨h₂.active.trans h₁.active, h₂.chain.trans h₁.chain, h₂.abandoned.trans h₁.abandoned⟩

/-- The active files stay active, and each abandoned import leaves a name in the chain. -/
structure Restored (input : Input) (before after : ImportContext) : Prop where
  keeps : before.activeFiles ⊆ after.activeFiles
  count : after.importChain.length + before.abandoned = before.importChain.length + after.abandoned
  le : before.abandoned ≤ after.abandoned
  same : after.abandoned = before.abandoned → SameFiles before after
  grows : input.GrowsForImports → after.abandoned = before.abandoned

theorem SameFiles.restored {before after : ImportContext} (h : SameFiles before after) :
    Restored input before after where
  keeps := h.active ▸ Subset.refl _
  count := by rw [h.chain, h.abandoned]
  le := h.abandoned.ge
  same _ := h
  grows _ := h.abandoned

theorem Restored.trans {a b c : ImportContext} (h₁ : Restored input a b) (h₂ : Restored input b c) :
    Restored input a c where
  keeps := Subset.trans h₁.keeps h₂.keeps
  count := by
    have := h₁.count
    have := h₂.count
    omega
  le := h₁.le.trans h₂.le
  same h := by
    have := h₁.le
    have := h₂.le
    exact (h₁.same (by omega)).trans (h₂.same (by omega))
  grows hGrows := (h₂.grows hGrows).trans (h₁.grows hGrows)

theorem addDecl_same (decl : Tree) : SameFiles s.ctx (addDecl input request s decl).ctx := by
  unfold addDecl
  dsimp only
  split_ifs <;> exact ⟨rfl, rfl, rfl⟩

theorem addDecl_stopped (hGrows : ∀ n, input.granted request n = true) (decl : Tree) :
    (addDecl input request s decl).stopped = s.stopped := by
  unfold addDecl
  rw [hGrows, if_pos rfl]
  split_ifs <;> rfl

theorem addDecls_spec (decls : List Tree) :
    SameFiles s.ctx (decls.foldl (addDecl input request) s).ctx ∧
      ((∀ n, input.granted request n = true) →
        (decls.foldl (addDecl input request) s).stopped = s.stopped) := by
  induction decls generalizing s with
  | nil => exact ⟨⟨rfl, rfl, rfl⟩, fun _ => rfl⟩
  | cons decl decls ih =>
    obtain ⟨hSame, hStopped⟩ := @ih (addDecl input request s decl)
    exact ⟨(addDecl_same decl).trans hSame,
      fun hGrows => (hStopped hGrows).trans (addDecl_stopped hGrows decl)⟩

theorem includeDeclarations_spec (declarations : List Tree) : ∃ s' succeeded,
      includeDeclarations input namespaceAlias selectedNames declarations s = some (s', succeeded) ∧
        SameFiles s.ctx s'.ctx ∧ (input.GrowsForImports → s'.stopped = s.stopped) := by
  obtain ⟨ctx, includeAll, flags, hFlags, hSame⟩ : ∃ ctx includeAll flags,
      includedFlags input s.ctx selectedNames declarations = some (ctx, includeAll, flags) ∧
        SameFiles s.ctx ctx := by
    obtain ⟨flags, hFlags, -⟩ := includedDeclarations_spec selectedNames declarations
    unfold includedFlags
    dsimp only
    rw [hFlags]
    split_ifs <;> exact ⟨_, _, _, rfl, rfl, rfl, rfl⟩
  rw [includeDeclarations, hFlags, Option.map_some]
  refine ⟨_, _, rfl, ?_⟩
  obtain ⟨hAdded, hStopped⟩ := @addDecls_spec input _ _ _
  refine ⟨SameFiles.trans ?_ hAdded, hStopped⟩
  dsimp only
  split_ifs
  · exact hSame
  · exact hSame.trans ⟨rfl, rfl, rfl⟩

end

-- ---
-- The run of the resolver
-- ---

section

variable {input : Input} {files : Finset Text} {n : Nat} {recurse : Resolver} {s : Progress}
  {namespaceAlias : Option Text} {selectedNames : List Text} {path : Text}

/-- The calls return while fewer than `n` files can become active. -/
def Returns (input : Input) (files : Finset Text) (recurse : Resolver) (n : Nat) : Prop :=
  ∀ ctx declarations path, (files \ ctx.activeFiles.toFinset).card < n →
    ∃ ctx' result, recurse ctx declarations path = some (ctx', result) ∧ Restored input ctx ctx'

theorem importProgram_spec (hReturns : Returns input files recurse n)
    (hRoom : (files \ s.ctx.activeFiles.toFinset).card < n) (declarations : List Tree) :
    ∃ s' succeeded, importProgram input recurse namespaceAlias selectedNames path declarations s =
        some (s', succeeded) ∧ Restored input s.ctx s'.ctx ∧
        (input.GrowsForImports → s'.stopped = s.stopped) := by
  unfold importProgram
  dsimp only
  split_ifs with hPlain hChild
  · obtain ⟨ctx, result, hRecurse, hRestored⟩ := hReturns s.ctx declarations path hRoom
    rw [hRecurse, Option.bind_some]
    obtain ⟨s', succeeded, hInclude, hSame, hStopped⟩ := includeDeclarations_spec _
    exact ⟨s', succeeded, hInclude,
      hRestored.trans (SameFiles.restored ⟨hSame.active, hSame.chain, hSame.abandoned⟩), hStopped⟩
  · obtain ⟨ctx, result, hRecurse, -⟩ := hReturns
      (s.ctx.asked (input.granted .childContext s.ctx.requests)).child declarations path hRoom
    rw [hRecurse, Option.bind_some]
    obtain ⟨s', succeeded, hInclude, hSame, hStopped⟩ := includeDeclarations_spec _
    exact ⟨s', succeeded, hInclude,
      SameFiles.restored ⟨hSame.active, hSame.chain, hSame.abandoned⟩, hStopped⟩
  · exact ⟨_, _, rfl, SameFiles.restored ⟨rfl, rfl, rfl⟩, fun _ => rfl⟩

theorem card_inactive_lt {ctx : ImportContext} (hIn : path ∈ files)
    (hNew : path ∉ ctx.activeFiles) :
    (files \ (ctx.activeFiles ++ [path]).toFinset).card <
      (files \ ctx.activeFiles.toFinset).card := by
  refine Finset.card_lt_card (Finset.ssubset_iff_of_subset ?_ |>.mpr ⟨path, ?_, ?_⟩)
  · intro q hq
    simp only [Finset.mem_sdiff, mem_toFinset, mem_append, not_or] at hq ⊢
    exact ⟨hq.1, hq.2.1⟩
  · exact Finset.mem_sdiff.mpr ⟨hIn, fun h => hNew (mem_toFinset.mp h)⟩
  · simp

theorem erase_active {active : List Text} (hNew : path ∉ active) :
    (active ++ [path]).erase path = active := by
  rw [erase_append_right _ hNew, erase_cons_head, append_nil]

theorem importSource_spec (hReturns : Returns input files recurse n) (moduleName : Text)
    {ctx : ImportContext} (hActive : s.ctx.activeFiles = ctx.activeFiles ++ [path])
    (hChain : s.ctx.importChain = ctx.importChain ++ [moduleName])
    (hAbandoned : s.ctx.abandoned = ctx.abandoned) (hNew : path ∉ ctx.activeFiles)
    (hRoom : (files \ (ctx.activeFiles ++ [path]).toFinset).card < n) (hRuns : s.stopped = false)
    (source : Text) : ∃ s',
      importSource input recurse namespaceAlias selectedNames path source s = some s' ∧
        Restored input ctx s'.ctx := by
  obtain ⟨t, succeeded, hImported, hRestored, hStopped⟩ : ∃ t succeeded,
      (match input.parseProgram path source with
        | none => some ({ s with ctx := s.ctx.failed }, false)
        | some declarations => importProgram input recurse namespaceAlias selectedNames path
            declarations s) = some (t, succeeded) ∧ Restored input s.ctx t.ctx ∧
        (input.GrowsForImports → t.stopped = s.stopped) := by
    cases input.parseProgram path source with
    | none => exact ⟨_, _, rfl, SameFiles.restored ⟨rfl, rfl, rfl⟩, fun _ => rfl⟩
    | some declarations => exact importProgram_spec hReturns (hActive ▸ hRoom) declarations
  have hKeeps : ∀ q ∈ ctx.activeFiles, q ∈ t.ctx.activeFiles := fun q hq =>
    hRestored.keeps (hActive ▸ mem_append_left _ hq)
  have hLe := hRestored.le
  have hCount := hRestored.count
  rw [hChain, length_append, length_singleton] at hCount
  rw [importSource, hImported]
  refine ⟨_, rfl, ?_⟩
  dsimp only
  by_cases hStop : t.stopped = true
  · rw [if_pos hStop]
    refine ⟨hKeeps, ?_, ?_, fun h => ?_, fun hGrows => ?_⟩ <;> dsimp only at *
    · omega
    · omega
    · omega
    · rw [hStopped hGrows, hRuns] at hStop
      cases hStop
  · have hLeft : Restored input ctx (t.ctx.leave path) := by
      refine ⟨fun q hq => (mem_erase_of_ne ?_).mpr (hKeeps q hq), ?_, hAbandoned ▸ hLe, ?_, ?_⟩
      · rintro rfl
        exact hNew hq
      · rw [ImportContext.leave, length_dropLast]
        dsimp only
        omega
      · intro h
        have hSame := hRestored.same (h.trans hAbandoned.symm)
        refine ⟨?_, ?_, h⟩
        · rw [ImportContext.leave, hSame.active, hActive, erase_active hNew]
        · rw [ImportContext.leave, hSame.chain, hChain, dropLast_concat]
      · exact fun hGrows => (hRestored.grows hGrows).trans hAbandoned
    split_ifs <;> exact hLeft.trans (SameFiles.restored ⟨rfl, rfl, rfl⟩)

section

variable
  (hFiles : ∀ current name path, input.resolveImportPath current name = some path → path ∈ files)
include hFiles

theorem importModule_spec (hReturns : Returns input files recurse n)
    (hRoom : (files \ s.ctx.activeFiles.toFinset).card < n + 1) (hRuns : s.stopped = false)
    (currentFilePath moduleName : Text) : ∃ s',
      importModule input recurse currentFilePath moduleName namespaceAlias selectedNames s = some s' ∧
        Restored input s.ctx s'.ctx := by
  unfold importModule
  cases hPath : input.resolveImportPath currentFilePath moduleName with
  | none => exact ⟨_, rfl, SameFiles.restored ⟨rfl, rfl, rfl⟩⟩
  | some path =>
    dsimp only
    by_cases hNew : path ∈ s.ctx.activeFiles
    · rw [if_pos hNew]
      exact ⟨s, rfl, SameFiles.restored ⟨rfl, rfl, rfl⟩⟩
    rw [if_neg hNew]
    split
    · exact ⟨s, rfl, SameFiles.restored ⟨rfl, rfl, rfl⟩⟩
    split
    · exact ⟨_, rfl, SameFiles.restored ⟨rfl, rfl, rfl⟩⟩
    split
    · exact ⟨_, rfl, SameFiles.restored ⟨erase_active hNew, rfl, rfl⟩⟩
    split
    · exact ⟨_, rfl, SameFiles.restored ⟨erase_active hNew, dropLast_concat, rfl⟩⟩
    split
    · exact ⟨_, rfl, SameFiles.restored ⟨erase_active hNew, dropLast_concat, rfl⟩⟩
    · have hLess := card_inactive_lt (hFiles _ _ _ hPath) hNew
      have hHere : (files \ (s.ctx.activeFiles ++ [path]).toFinset).card < n := by omega
      refine importSource_spec hReturns moduleName ?_ ?_ ?_ hNew hHere ?_ _
      all_goals first | rfl | exact hRuns

theorem processDeclarations_spec (hReturns : Returns input files recurse n)
    (currentFilePath : Text) (declarations : List Tree)
    (hRoom : (files \ s.ctx.activeFiles.toFinset).card < n + 1) (hRuns : s.stopped = false) : ∃ s',
      processDeclarations input recurse currentFilePath declarations s = some s' ∧
        Restored input s.ctx s'.ctx := by
  induction declarations generalizing s with
  | nil => exact ⟨s, rfl, SameFiles.restored ⟨rfl, rfl, rfl⟩⟩
  | cons decl declarations ih =>
    obtain ⟨t, hNext, hFirst⟩ : ∃ t,
        processDeclaration input recurse currentFilePath s decl = some t ∧
          Restored input s.ctx t.ctx := by
      unfold processDeclaration
      split
      · exact importModule_spec hFiles hReturns hRoom hRuns _ _
      · exact ⟨_, rfl, (addDecl_same _).restored⟩
    rw [processDeclarations, hNext, Option.bind_some]
    by_cases hStop : t.stopped = true
    · rw [if_pos hStop]
      exact ⟨t, rfl, hFirst⟩
    · rw [if_neg hStop]
      have hLess : (files \ t.ctx.activeFiles.toFinset).card ≤
          (files \ s.ctx.activeFiles.toFinset).card :=
        Finset.card_le_card (Finset.sdiff_subset_sdiff subset_rfl fun q hq =>
          mem_toFinset.mpr (hFirst.keeps (mem_toFinset.mp hq)))
      obtain ⟨s', hRest, hRestored⟩ := ih (by omega) (Bool.eq_false_iff.mpr hStop)
      exact ⟨s', hRest, hFirst.trans hRestored⟩

/-- Each call has one more active file than its caller. -/
theorem processImports_spec (n : Nat) : Returns input files (processImportsRecursive input n) n := by
  induction n with
  | zero => exact fun _ _ _ hRoom => absurd hRoom (Nat.not_lt_zero _)
  | succ n ih =>
    intro ctx declarations path hRoom
    obtain ⟨s, hRun, hRestored⟩ := processDeclarations_spec hFiles ih path declarations
      (s := { ctx }) hRoom rfl
    simp only [processImportsRecursive, hRun, Option.map_some, cleanup]
    split_ifs <;> exact ⟨_, _, rfl, hRestored.trans (SameFiles.restored ⟨rfl, rfl, rfl⟩)⟩

end

end

/-- **Import resolution.** It returns, whatever fails. The active files and the chain are then those
of the call if and only if no import is abandoned, and none is if the array can grow. -/
theorem process_imports_returns_restored (input : Input) (files : Finset Text)
    (hFiles : ∀ current name path, input.resolveImportPath current name = some path → path ∈ files)
    {depth : Nat} (hDepth : files.card < depth) (ctx : ImportContext) (declarations : List Tree)
    (currentFilePath : Text) : ∃ ctx' result,
      processImportsRecursive input depth ctx declarations currentFilePath = some (ctx', result) ∧
        (ctx'.activeFiles = ctx.activeFiles ∧ ctx'.importChain = ctx.importChain ↔
          ctx'.abandoned = ctx.abandoned) ∧
        (input.GrowsForImports → ctx'.abandoned = ctx.abandoned) := by
  obtain ⟨ctx', result, hRun, hRestored⟩ := processImports_spec hFiles depth ctx declarations
    currentFilePath (Nat.lt_of_le_of_lt (Finset.card_le_card Finset.sdiff_subset) hDepth)
  refine ⟨ctx', result, hRun, ⟨?_, fun h => ?_⟩, hRestored.grows⟩
  · rintro ⟨-, hChain⟩
    have hCount := hRestored.count
    rw [hChain] at hCount
    omega
  · exact ⟨(hRestored.same h).active, (hRestored.same h).chain⟩

-- ---
-- No import is left
-- ---

/-- A declaration that `process_imports_recursive` puts the declarations of a file in the place of. -/
def isImport : Tree → Bool
  | .node (.importDeclaration _ _ _) _ => true
  | _ => false

def ImportFree (declarations : List Tree) : Prop := ∀ decl ∈ declarations, isImport decl = false

/-- The renaming writes names only. -/
structure Input.KeepsKinds (input : Input) : Prop where
  names : ∀ name flags declarations,
    (input.rewriteNames name flags declarations).map isImport = declarations.map isImport
  bindings : ∀ bindings declarations,
    (input.rewriteBindings bindings declarations).map isImport = declarations.map isImport

theorem ImportFree.of_map {before after : List Tree} (h : ImportFree before)
    (hMap : after.map isImport = before.map isImport) : ImportFree after := by
  intro decl hDecl
  have hMem : isImport decl ∈ before.map isImport := hMap ▸ mem_map_of_mem hDecl
  obtain ⟨d, hd, hEq⟩ := mem_map.mp hMem
  exact hEq ▸ h d hd

theorem processImportStrs_isImport (files : Text → Option Text) (t : Tree) :
    isImport (processImportStrs files t).1 = isImport t := by
  obtain ⟨data, children⟩ := t
  by_cases h : ∃ filePath, data = .importStr filePath
  · obtain ⟨filePath, rfl⟩ := h
    rw [processImportStrs]
    cases files (cString filePath) <;> rfl
  · rw [processImportStrs_node children fun filePath hData => h ⟨filePath, hData⟩]
    cases data <;> rfl

theorem processChildren_isImport (files : Text → Option Text) (data : NodeData) (n : Nat)
    (declarations : List Tree) (i : Nat) :
    (processChildren files data n i declarations).1.map isImport = declarations.map isImport := by
  induction declarations generalizing i with
  | nil => rfl
  | cons c cs ih =>
    rw [processChildren, map_cons, map_cons, ih]
    congr 1
    split
    · exact processImportStrs_isImport files c
    · rfl

section

variable {input : Input} {recurse : Resolver} {s t : Progress} {declarations : List Tree}
  {namespaceAlias : Option Text} {selectedNames : List Text} {succeeded : Bool}

theorem addDecl_importFree {request : Request} {decl : Tree} (h : ImportFree s.newDeclarations)
    (hDecl : isImport decl = false) :
    ImportFree (addDecl input request s decl).newDeclarations := by
  have hBoth : ImportFree (s.newDeclarations ++ [decl]) := by
    intro d hd
    rcases mem_append.mp hd with hd | hd
    · exact h d hd
    · exact mem_singleton.mp hd ▸ hDecl
  unfold addDecl
  dsimp only
  split_ifs <;> first | exact h | exact hBoth

theorem addDecls_importFree {request : Request} (h : ImportFree s.newDeclarations)
    (hDecls : ImportFree declarations) :
    ImportFree (declarations.foldl (addDecl input request) s).newDeclarations := by
  induction declarations generalizing s with
  | nil => exact h
  | cons decl declarations ih =>
    obtain ⟨hDecl, hRest⟩ := forall_mem_cons.mp hDecls
    exact ih (addDecl_importFree h hDecl) hRest

/-- What a call leaves is free of imports. -/
def LeavesNone (recurse : Resolver) : Prop := ∀ ctx declarations path ctx' result,
  recurse ctx declarations path = some (ctx', result) → ImportFree result

section

variable (hKinds : input.KeepsKinds)
include hKinds

theorem includeDeclarations_importFree
    (hRun : includeDeclarations input namespaceAlias selectedNames declarations s =
      some (t, succeeded)) (h : ImportFree s.newDeclarations) (hDecls : ImportFree declarations) :
    ImportFree t.newDeclarations := by
  obtain ⟨⟨ctx, includeAll, flags⟩, -, hRun⟩ := Option.map_eq_some_iff.mp hRun
  obtain ⟨rfl, -⟩ := Prod.mk.inj hRun
  refine addDecls_importFree h fun decl hDecl => ?_
  obtain ⟨d, hd, rfl⟩ := mem_map.mp hDecl
  have hIn := (of_mem_zip (mem_filter.mp hd).1).1
  cases namespaceAlias with
  | none => exact hDecls _ hIn
  | some name =>
    dsimp only at hIn
    split at hIn
    · exact hDecls.of_map (hKinds.names _ _ _) _ hIn
    · exact hDecls _ hIn

variable (hRecurse : LeavesNone recurse)
include hRecurse

theorem importProgram_importFree {path : Text}
    (hRun : importProgram input recurse namespaceAlias selectedNames path declarations s =
      some (t, succeeded)) (h : ImportFree s.newDeclarations) : ImportFree t.newDeclarations := by
  unfold importProgram at hRun
  dsimp only at hRun
  split_ifs at hRun
  -- the declarations of the file, whether or not it is processed in a child context
  iterate 2
    obtain ⟨⟨ctx, result⟩, hCall, hRun⟩ := Option.bind_eq_some_iff.mp hRun
    exact includeDeclarations_importFree hKinds hRun h
      ((hRecurse _ _ _ _ _ hCall).of_map (processChildren_isImport _ _ _ _ _))
  · cases hRun
    exact h

theorem importSource_importFree {path source : Text}
    (hRun : importSource input recurse namespaceAlias selectedNames path source s = some t)
    (h : ImportFree s.newDeclarations) : ImportFree t.newDeclarations := by
  obtain ⟨⟨u, succeeded⟩, hImported, hRun⟩ := Option.map_eq_some_iff.mp hRun
  have hu : ImportFree u.newDeclarations := by
    split at hImported
    · cases hImported
      exact h
    · exact importProgram_importFree hKinds hRecurse hImported h
  dsimp only at hRun
  split_ifs at hRun <;> exact hRun ▸ hu

theorem processDeclaration_importFree {path : Text} {decl : Tree}
    (hRun : processDeclaration input recurse path s decl = some t)
    (h : ImportFree s.newDeclarations) : ImportFree t.newDeclarations := by
  unfold processDeclaration importModule at hRun
  split at hRun
  · split at hRun
    · cases hRun
      exact h
    dsimp only at hRun
    iterate 6
      split at hRun
      · cases hRun
        exact h
    exact importSource_importFree hKinds hRecurse hRun h
  · next hOther =>
    cases hRun
    refine addDecl_importFree h ?_
    unfold isImport
    split
    · exact absurd rfl (hOther _ _ _ _)
    · rfl

theorem processDeclarations_importFree {path : Text}
    (hRun : processDeclarations input recurse path declarations s = some t)
    (h : ImportFree s.newDeclarations) : ImportFree t.newDeclarations := by
  induction declarations generalizing s with
  | nil => exact Option.some.inj hRun ▸ h
  | cons decl declarations ih =>
    obtain ⟨u, hNext, hRun⟩ := Option.bind_eq_some_iff.mp hRun
    have hu := processDeclaration_importFree hKinds hRecurse hNext h
    split_ifs at hRun
    · exact Option.some.inj hRun ▸ hu
    · exact ih hRun hu

end

end

/-- **The resolver leaves no import**, also where it reports an error or a request is refused. -/
theorem process_imports_leaves_no_import {input : Input} (hKinds : input.KeepsKinds) (depth : Nat) :
    LeavesNone (processImportsRecursive input depth) := by
  induction depth with
  | zero => exact fun _ _ _ _ _ hRun => nomatch hRun
  | succ depth ih =>
    intro ctx declarations path ctx' result hRun
    obtain ⟨s, hSteps, hRun⟩ := Option.map_eq_some_iff.mp hRun
    have hs := processDeclarations_importFree hKinds ih hSteps fun _ h => nomatch h
    unfold cleanup at hRun
    dsimp only at hRun
    split_ifs at hRun <;> obtain ⟨-, rfl⟩ := Prod.mk.inj hRun
    · exact hs
    · exact hs
    · exact hs.of_map (hKinds.bindings _ _)

-- ---
-- Two files that import each other
-- ---

def importOf (moduleName : Text) (selectedNames : List Text) : Tree :=
  .node (.importDeclaration moduleName none selectedNames) []

/-- `a` imports `b`, and `b` imports `f` of `a` and declares `g`. -/
def twoFiles (grows : Bool) : Input where
  resolveImportPath _ name := if name = ['a'] ∨ name = ['b'] then some name else none
  readFileContent path := some path
  parseProgram path _ :=
    if path = ['a'] then some [importOf ['b'] []]
    else some [importOf ['a'] [['f']], .node (.varDeclaration ['g'] none false) []]
  rewriteNames _ _ declarations := declarations
  rewriteBindings _ declarations := declarations
  granted request _ := grows || request ≠ .importedDeclaration

def atA : ImportContext := ⟨[['a']], [['a']], [], false, 0, 0⟩

theorem twoFiles_returns_restored : ∃ ctx' result,
    processImportsRecursive (twoFiles true) 3 atA [importOf ['b'] []] ['a'] = some (ctx', result) ∧
      (ctx'.activeFiles = [['a']] ∧ ctx'.importChain = [['a']] ↔ ctx'.abandoned = 0) ∧
      ((twoFiles true).GrowsForImports → ctx'.abandoned = 0) := by
  refine process_imports_returns_restored (twoFiles true) {['a'], ['b']} ?_ (by decide) atA _ _
  intro _ name path hPath
  rw [Finset.mem_insert, Finset.mem_singleton]
  have hPath : (if name = ['a'] ∨ name = ['b'] then some name else none) = some path := hPath
  split_ifs at hPath with hName
  cases hPath
  exact hName

/-- **The array cannot grow for the declaration of `b`.** -/
theorem failed_growth_leaves_active : ∃ ctx' result,
    processImportsRecursive (twoFiles false) 3 atA [importOf ['b'] []] ['a'] = some (ctx', result) ∧
      ctx'.activeFiles = [['a'], ['b']] ∧ ctx'.importChain = [['a'], ['b']] :=
  ⟨_, _, rfl, rfl, rfl⟩

theorem twoFiles_leaves_no_import : ImportFree [.node (.varDeclaration ['g'] none false) []] :=
  @process_imports_leaves_no_import (twoFiles true) ⟨fun _ _ _ => rfl, fun _ _ => rfl⟩ 3
    atA [importOf ['b'] []] ['a'] _ _ rfl

end Mettle.Semantic.Imports
