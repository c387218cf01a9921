import Mettle.Parser.Tree

/-!
# Mettle — embedded files

`process_import_strs_in_node` puts the content of a file in the place of an
`import_str` expression. It walks the tree kind by kind, and what it does not
walk into keeps its `import_str` nodes.

The files are a parameter: what `resolve_import_path` and `read_file_content`
give for a path, byte for byte, or nothing.
-/

namespace Mettle.Semantic

open Mettle.Lexing Mettle.Parser List

-- ---
-- The walk
-- ---

/-- Whether `process_import_strs_in_node` goes to child `i` of `n`. -/
def walksInto : NodeData → Nat → Nat → Bool
  | .program, _, _ => true
  | .varDeclaration _ _ _, _, _ => true
  | .functionDeclaration _, _, _ => true
  | .functionCall _ _ hasObject, n, i => !(hasObject && i + 1 == n)
  | .assignment _ hasTarget, _, i => !(hasTarget && i == 0)
  | .returnStatement, _, i => i == 0
  | .binaryExpression _, _, _ => true
  | .unaryExpression _, _, _ => true
  | .ifStatement, _, _ => true
  | .whileStatement _, _, _ => true
  | .forStatement _, _, _ => true
  | .switchStatement, _, _ => true
  | .caseClause _, _, _ => true
  | _, _, _ => false

section

variable (files : Text → Option Text)

mutual

/-- `process_import_strs_in_node`, with whether an error was reported. -/
def processImportStrs : Tree → Tree × Bool
  | .node (.importStr filePath) children =>
    match files (cString filePath) with
    | some source => (.node (.stringLiteral source) children, false)
    | none => (.node (.importStr filePath) children, true)
  | .node data children =>
    let walked := processChildren data children.length 0 children
    (.node data walked.1, walked.2)

/-- The children of a node, from child `i` on. -/
def processChildren (data : NodeData) (n : Nat) : Nat → List Tree → List Tree × Bool
  | _, [] => ([], false)
  | i, c :: cs =>
    let first := if walksInto data n i then processImportStrs c else (c, false)
    let others := processChildren data n (i + 1) cs
    (first.1 :: others.1, first.2 || others.2)

end

end

-- ---
-- What stands in a tree
-- ---

/-- The path of an `import_str`. -/
def importStrOf : NodeData → List Text
  | .importStr filePath => [filePath]
  | _ => []

/-- The `import_str` expressions of a tree. -/
def importStrs : Tree → List Text := Tree.collect importStrOf

def stringOf : NodeData → List Text
  | .stringLiteral value => [value]
  | _ => []

def strings : Tree → List Text := Tree.collect stringOf

def wantedOf (files : Text → Option Text) : NodeData → List Text
  | .stringLiteral value => [value]
  | .importStr filePath => (files (cString filePath)).toList
  | _ => []

def wantedStrings (files : Text → Option Text) : Tree → List Text :=
  Tree.collect (wantedOf files)

mutual

/-- The `import_str` expressions in the parts of a tree that the walk does not go
to. -/
def skipped : Tree → List Text
  | .node (.importStr _) children => Tree.collectAll importStrOf children
  | .node data children => skippedIn data children.length 0 children

/-- The same for the children of a node, from child `i` on. -/
def skippedIn (data : NodeData) (n : Nat) : Nat → List Tree → List Text
  | _, [] => []
  | i, c :: cs =>
    (if walksInto data n i then skipped c else importStrs c) ++ skippedIn data n (i + 1) cs

end

-- ---
-- What the walk leaves
-- ---

variable {files : Text → Option Text}
variable {data : NodeData}

theorem processImportStrs_node (children : List Tree) (h : ∀ filePath, data ≠ .importStr filePath) :
    processImportStrs files (.node data children) =
      (.node data (processChildren files data children.length 0 children).1,
        (processChildren files data children.length 0 children).2) := by
  cases data <;> first | rfl | exact absurd rfl (h _)

theorem skipped_node (children : List Tree) (h : ∀ filePath, data ≠ .importStr filePath) :
    skipped (.node data children) = skippedIn data children.length 0 children := by
  cases data <;> first | rfl | exact absurd rfl (h _)

theorem importStrOf_eq_nil (h : ∀ filePath, data ≠ .importStr filePath) : importStrOf data = []
    := by
  cases data <;> first | rfl | exact absurd rfl (h _)

def Replaced (files : Text → Option Text) (t : Tree) : Prop :=
  (importStrs (processImportStrs files t).1 = [] ↔
    skipped t = [] ∧ ∀ path ∈ importStrs t, (files (cString path)).isSome) ∧
  (importStrs (processImportStrs files t).1 = [] →
    strings (processImportStrs files t).1 = wantedStrings files t)

theorem strings_eq_wantedStrings {t : Tree} (h : importStrs t = []) :
    strings t = wantedStrings files t := by
  revert h
  refine Tree.induct (p := fun t => importStrs t = [] → strings t = wantedStrings files t) ?_ t
  intro data children ih h
  obtain ⟨hOwn, hChildren⟩ := append_eq_nil_iff.mp h
  have hSame : stringOf data = wantedOf files data := by
    cases data <;> first | rfl | cases hOwn
  refine congrArg₂ (· ++ ·) hSame ?_
  clear hSame hOwn h
  induction children with
  | nil => rfl
  | cons c cs ihs =>
    obtain ⟨hHead, hTail⟩ := append_eq_nil_iff.mp hChildren
    exact congrArg₂ (· ++ ·) (ih c mem_cons_self hHead)
      (ihs (fun c hc => ih c (mem_cons_of_mem _ hc)) hTail)

theorem processChildren_replaced {data : NodeData} {n : Nat} {children : List Tree}
    (ih : ∀ c ∈ children, Replaced files c) (i : Nat) :
    (Tree.collectAll importStrOf (processChildren files data n i children).1 = [] ↔
      skippedIn data n i children = [] ∧
        ∀ path ∈ Tree.collectAll importStrOf children, (files (cString path)).isSome) ∧
    (Tree.collectAll importStrOf (processChildren files data n i children).1 = [] →
      Tree.collectAll stringOf (processChildren files data n i children).1 =
        Tree.collectAll (wantedOf files) children) := by
  induction children generalizing i with
  | nil => simp [processChildren, Tree.collectAll, skippedIn]
  | cons c cs ihs =>
    obtain ⟨hOthers, hOtherStrings⟩ :=
      ihs (fun c hc => ih c (mem_cons_of_mem _ hc)) (i + 1)
    obtain ⟨hFirst, hFirstStrings⟩ := ih c mem_cons_self
    by_cases hWalk : walksInto data n i = true
    · simp only [processChildren, hWalk, if_true, Tree.collectAll, skippedIn,
        append_eq_nil_iff, forall_mem_append]
      refine ⟨?_, fun h => congrArg₂ (· ++ ·) (hFirstStrings h.1) (hOtherStrings h.2)⟩
      exact (and_congr_left' hFirst).trans (by tauto)
    · simp only [processChildren, hWalk, Bool.false_eq_true, if_false, Tree.collectAll, skippedIn,
        append_eq_nil_iff, forall_mem_append]
      refine ⟨?_, fun h => congrArg₂ (· ++ ·) (strings_eq_wantedStrings h.1) (hOtherStrings h.2)⟩
      rw [hOthers]
      constructor
      · rintro ⟨hNone, hSkipped, hFiles⟩
        refine ⟨⟨hNone, hSkipped⟩, ?_, hFiles⟩
        intro path hPath
        rw [show Tree.collect importStrOf c = [] from hNone] at hPath
        exact absurd hPath not_mem_nil
      · rintro ⟨⟨hNone, hSkipped⟩, -, hFiles⟩
        exact ⟨hNone, hSkipped, hFiles⟩

theorem collectAll_stringOf_eq {children : List Tree}
    (h : Tree.collectAll importStrOf children = []) :
    Tree.collectAll stringOf children = Tree.collectAll (wantedOf files) children := by
  induction children with
  | nil => rfl
  | cons c cs ih =>
    obtain ⟨hHead, hTail⟩ := append_eq_nil_iff.mp h
    exact congrArg₂ (· ++ ·) (strings_eq_wantedStrings hHead) (ih hTail)

theorem replaced_importStr (filePath : Text) (children : List Tree) :
    Replaced files (.node (.importStr filePath) children) := by
  unfold Replaced importStrs strings wantedStrings
  cases hFile : files (cString filePath) with
  | none =>
    simp only [processImportStrs, hFile, Tree.collect, importStrOf, cons_append, reduceCtorEq,
      false_iff, not_and, false_implies, and_true]
    intro _ hAll
    have := hAll filePath mem_cons_self
    rw [hFile] at this
    cases this
  | some source =>
    simp only [processImportStrs, hFile, Tree.collect, importStrOf, stringOf, wantedOf, skipped,
      nil_append, Option.toList_some, cons_append, forall_mem_cons,
      Option.isSome_some, true_and]
    refine ⟨⟨fun hNone => ⟨hNone, ?_⟩, And.left⟩, fun hNone => ?_⟩
    · rw [hNone]
      exact fun path hPath => absurd hPath not_mem_nil
    · rw [collectAll_stringOf_eq hNone]

theorem replaced (files : Text → Option Text) (t : Tree) : Replaced files t := by
  refine Tree.induct (p := Replaced files) ?_ t
  intro data children ih
  by_cases hImport : ∃ filePath, data = .importStr filePath
  · obtain ⟨filePath, rfl⟩ := hImport
    exact replaced_importStr filePath children
  · have hOther : ∀ filePath, data ≠ .importStr filePath := fun filePath h =>
      hImport ⟨filePath, h⟩
    have hOwn : stringOf data = wantedOf files data := by
      cases data <;> first | rfl | exact absurd rfl (hOther _)
    obtain ⟨hIff, hStrings⟩ :=
      @processChildren_replaced files data children.length children ih 0
    unfold Replaced importStrs strings wantedStrings
    rw [processImportStrs_node children hOther, skipped_node children hOther]
    simp only [Tree.collect, importStrOf_eq_nil hOther, nil_append, hOwn]
    exact ⟨hIff, fun h => congrArg (wantedOf files data ++ ·) (hStrings h)⟩

/-- **Every `import_str` is replaced** if and only if the walk reaches all of them
and all the files can be read. -/
theorem importStrs_process_eq_nil_iff (files : Text → Option Text) (t : Tree) :
    importStrs (processImportStrs files t).1 = [] ↔
      skipped t = [] ∧ ∀ path ∈ importStrs t, (files (cString path)).isSome :=
  (replaced files t).1

theorem strings_process {t : Tree} (h : importStrs (processImportStrs files t).1 = []) :
    strings (processImportStrs files t).1 = wantedStrings files t :=
  (replaced files t).2 h

end Mettle.Semantic
