import Mathlib.Data.List.Perm.Basic
import Mettle.Parser.Tree

/-!
# Mettle — copies of syntax trees

`ast_clone_node` on nodes in memory: a node has its address, its type with the data of that type,
the nodes the data points to, and the list of its children. The copy goes through the types one by
one, and three are missing: of an enum declaration, a `match` and a method it leaves a node of the
same type without data and without children.
-/

namespace Mettle.Parser

open Lexing List Option

-- ---
-- Nodes
-- ---

/-- The types of nodes. -/
inductive ASTNodeType
  | program | importDeclaration | importStr | varDeclaration | functionDeclaration
  | structDeclaration | enumDeclaration | traitDeclaration | implDeclaration | methodDeclaration
  | assignment | functionCall | funcPtrCall | returnStatement | ifStatement | whileStatement
  | forStatement | switchStatement | caseClause | matchStatement | breakStatement
  | continueStatement | deferStatement | errdeferStatement | inlineAsm | identifier
  | numberLiteral | stringLiteral | binaryExpression | unaryExpression | memberAccess
  | indexExpression | newExpression | castExpression
  deriving DecidableEq

/-- `FunctionDeclaration` but for its body. -/
structure FunctionDeclaration extends FunctionHeader where
  isExtern : Bool
  linkName : Option Text

/-- `node->data` by the type of the node, but for the nodes it points to. -/
inductive AstData : ASTNodeType → Type
  | program : AstData .program
  | importDeclaration (moduleName namespaceAlias : Option Text) (selectedNames : List Text) :
    AstData .importDeclaration
  | importStr (filePath : Option Text) : AstData .importStr
  | varDeclaration (name : Text) (typeName : Option Text) (isExtern isExported : Bool)
    (linkName : Option Text) : AstData .varDeclaration
  | functionDeclaration (function : FunctionDeclaration) : AstData .functionDeclaration
  | structDeclaration (name : Text) (fieldNames fieldTypes : List Text) (isExported : Bool)
    (typeParams : List Text) (typeParamTraits : List (Option Text)) : AstData .structDeclaration
  | enumDeclaration (name : Text) (variants : List EnumVariant) (isExported : Bool)
    (typeParams : List Text) : AstData .enumDeclaration
  | traitDeclaration (name : Text) (isExported : Bool) : AstData .traitDeclaration
  | implDeclaration (traitName forTypeName : Text) : AstData .implDeclaration
  | methodDeclaration (method : FunctionDeclaration) : AstData .methodDeclaration
  | assignment (variableName : Option Text) : AstData .assignment
  | functionCall (functionName : Text) (typeArgs : List Text) (isIndirectCall : Bool) :
    AstData .functionCall
  | funcPtrCall : AstData .funcPtrCall
  | returnStatement : AstData .returnStatement
  | ifStatement : AstData .ifStatement
  | whileStatement (label : Option Text) : AstData .whileStatement
  | forStatement (label : Option Text) : AstData .forStatement
  | switchStatement : AstData .switchStatement
  | caseClause (isDefault : Bool) : AstData .caseClause
  | matchStatement (arms : List MatchArm) (isExpression : Bool) : AstData .matchStatement
  | breakStatement (targetLabel : Option Text) : AstData .breakStatement
  | continueStatement (targetLabel : Option Text) : AstData .continueStatement
  | deferStatement : AstData .deferStatement
  | errdeferStatement : AstData .errdeferStatement
  | inlineAsm (assemblyCode : Option Text) : AstData .inlineAsm
  | identifier (name : Text) : AstData .identifier
  | numberLiteral (value : BitVec 64) (isFloat : Bool) (intRadix : BitVec 8) :
    AstData .numberLiteral
  | stringLiteral (value : Option Text) : AstData .stringLiteral
  | binaryExpression (operator : Text) : AstData .binaryExpression
  | unaryExpression (operator : Text) : AstData .unaryExpression
  | memberAccess (member : Text) : AstData .memberAccess
  | indexExpression : AstData .indexExpression
  | newExpression (typeName : Text) : AstData .newExpression
  | castExpression (typeName : Text) : AstData .castExpression

/-- A pointer to an `ASTNode`. -/
inductive AstNode
  | null
  | node (address : Nat) (type : ASTNodeType) (data : Option (AstData type))
    (parts : List AstNode) (children : List Nat)

def AstNode.address? : AstNode → Option Nat
  | null => none
  | node address _ _ _ _ => some address

-- ---
-- Copies
-- ---

/-- The data of the copy, by the cases of `ast_clone_node`. -/
def cloneData : {type : ASTNodeType} → AstData type → Option (AstData type)
  | _, .program => some .program
  | _, .varDeclaration name typeName isExtern isExported linkName =>
    some (.varDeclaration name typeName isExtern isExported linkName)
  | _, .functionDeclaration function => some (.functionDeclaration function)
  | _, .structDeclaration name fieldNames fieldTypes isExported typeParams typeParamTraits =>
    some (.structDeclaration name fieldNames fieldTypes isExported typeParams typeParamTraits)
  | _, .functionCall functionName typeArgs isIndirectCall =>
    some (.functionCall functionName typeArgs isIndirectCall)
  | _, .traitDeclaration name isExported => some (.traitDeclaration name isExported)
  | _, .implDeclaration traitName forTypeName => some (.implDeclaration traitName forTypeName)
  | _, .funcPtrCall => some .funcPtrCall
  | _, .assignment variableName => some (.assignment variableName)
  | _, .identifier name => some (.identifier name)
  | _, .numberLiteral value isFloat intRadix => some (.numberLiteral value isFloat intRadix)
  | _, .stringLiteral value => some (.stringLiteral value)
  | _, .binaryExpression operator => some (.binaryExpression operator)
  | _, .unaryExpression operator => some (.unaryExpression operator)
  | _, .memberAccess member => some (.memberAccess member)
  | _, .indexExpression => some .indexExpression
  | _, .newExpression typeName => some (.newExpression typeName)
  | _, .castExpression typeName => some (.castExpression typeName)
  -- A `return` without value has no data to copy.
  | _, .returnStatement => some .returnStatement
  | _, .ifStatement => some .ifStatement
  | _, .whileStatement label => some (.whileStatement label)
  | _, .forStatement label => some (.forStatement label)
  | _, .switchStatement => some .switchStatement
  | _, .caseClause isDefault => some (.caseClause isDefault)
  | _, .deferStatement => some .deferStatement
  | _, .errdeferStatement => some .errdeferStatement
  | _, .inlineAsm assemblyCode => some (.inlineAsm assemblyCode)
  | _, .importDeclaration moduleName namespaceAlias selectedNames =>
    some (.importDeclaration moduleName namespaceAlias selectedNames)
  | _, .importStr filePath => some (.importStr filePath)
  | _, .breakStatement targetLabel => some (.breakStatement targetLabel)
  | _, .continueStatement targetLabel => some (.continueStatement targetLabel)
  -- `default`
  | _, .enumDeclaration .. | _, .methodDeclaration .. | _, .matchStatement .. => none

def addOrder {α : Type} : {type : ASTNodeType} → AstData type → List α → List α
  | _, .assignment _, [value, target] => [target, value]
  | _, .ifStatement, condition :: thenBranch :: elseBranch :: elseIfs =>
    condition :: thenBranch :: (elseIfs ++ [elseBranch])
  | _, .switchStatement, expression :: cases => cases ++ [expression]
  | _, _, parts => parts

mutual

/-- `ast_clone_node`, with the next address that the allocator gives out. -/
def astCloneNode : AstNode → Nat → AstNode × Nat
  | .null, next => (.null, next)
  | .node _ type data parts _, next =>
    match data.bind cloneData with
    | none => (.node next type none [] [], next + 1)
    | some copy =>
      let cloned := cloneParts parts (next + 1)
      -- `ast_add_child` adds no null pointer
      (.node next type (some copy) cloned.1
        ((addOrder copy cloned.1).filterMap AstNode.address?), cloned.2)

def cloneParts : List AstNode → Nat → List AstNode × Nat
  | [], next => ([], next)
  | part :: parts, next =>
    let first := astCloneNode part next
    let rest := cloneParts parts first.2
    (first.1 :: rest.1, rest.2)

end

-- ---
-- Faithful copies
-- ---

mutual

def AstNode.subnodes : AstNode → List AstNode
  | .null => []
  | .node address type data parts children =>
    .node address type data parts children :: subnodesAll parts

def AstNode.subnodesAll : List AstNode → List AstNode
  | [] => []
  | part :: parts => part.subnodes ++ subnodesAll parts

end

inductive Same : AstNode → AstNode → Prop
  | null : Same .null .null
  | node {address address' : Nat} {type : ASTNodeType} {data : Option (AstData type)}
    {parts parts' : List AstNode} {children children' : List Nat}
    (h : List.Forall₂ Same parts parts') :
    Same (.node address type data parts children) (.node address' type data parts' children')

def AstNode.Listed : AstNode → Prop
  | null => True
  | node _ _ _ parts children => children.Perm (parts.filterMap address?)

/-- The copy made of `original` is the same tree, has no node in common with it, and its children
lists are those of its data. -/
def ClonedFaithfully (original : AstNode) (next : Nat) : Prop :=
  Same original (astCloneNode original next).1 ∧
  (∀ node ∈ (astCloneNode original next).1.subnodes, ∀ node' ∈ original.subnodes,
    node.address? ≠ node'.address?) ∧
  ∀ node ∈ (astCloneNode original next).1.subnodes, node.Listed

/-- The types that `ast_clone_node` does not know. -/
def AstNode.Forgotten : AstNode → Prop
  | null => False
  | node _ type _ _ _ => type ∈ [.enumDeclaration, .matchStatement, .methodDeclaration]

/-- Built by the parser: every node lies below the next address, and has data unless it is a
`return` without value, of which nothing is part. -/
def AstNode.Built (next : Nat) : AstNode → Prop
  | null => True
  | node address type data parts _ =>
    address < next ∧ (data.isSome ∨ (type = .returnStatement ∧ parts = []))

theorem AstNode.induct {p : AstNode → Prop} (hNull : p .null)
    (hNode : ∀ address type data parts children, (∀ part ∈ parts, p part) →
      p (.node address type data parts children)) (node : AstNode) : p node :=
  @AstNode.rec p (fun parts => ∀ part ∈ parts, p part) hNull hNode (fun _ h => absurd h not_mem_nil)
    (fun _ _ hHead hTail => forall_mem_cons.mpr ⟨hHead, hTail⟩) node

variable {type : ASTNodeType}

theorem addOrder_perm {α : Type} (data : AstData type) (parts : List α) :
    (addOrder data parts).Perm parts := by
  rw [addOrder.eq_def]
  split
  · exact .swap _ _ _
  · exact .cons _ (.cons _ (perm_append_singleton _ _))
  · exact perm_append_singleton _ _
  · exact .refl _

theorem cloneData_eq (data : AstData type) : cloneData data =
    if type ∈ [.enumDeclaration, .matchStatement, .methodDeclaration] then none else some data := by
  cases data <;> rfl

variable {parts : List AstNode}

/-- What is known of a copy, whatever the tree is. -/
structure CopySpec (original : AstNode) (next : Nat) : Prop where
  grows : next ≤ (astCloneNode original next).2
  fresh : ∀ node ∈ (astCloneNode original next).1.subnodes, ∃ a, node.address? = some a ∧ next ≤ a
  listed : ∀ node ∈ (astCloneNode original next).1.subnodes, node.Listed
  same : (∀ node ∈ original.subnodes, ∃ bound, node.Built bound) →
    (Same original (astCloneNode original next).1 ↔ ∀ node ∈ original.subnodes, ¬ node.Forgotten)

theorem cloneParts_spec (h : ∀ part ∈ parts, ∀ next, CopySpec part next) (next : Nat) :
    next ≤ (cloneParts parts next).2 ∧ (∀ node ∈ AstNode.subnodesAll (cloneParts parts next).1,
        (∃ a, node.address? = some a ∧ next ≤ a) ∧ node.Listed) ∧
      ((∀ node ∈ AstNode.subnodesAll parts, ∃ bound, node.Built bound) →
        (List.Forall₂ Same parts (cloneParts parts next).1 ↔
          ∀ node ∈ AstNode.subnodesAll parts, ¬ node.Forgotten)) := by
  induction parts generalizing next with
  | nil => simp [cloneParts, AstNode.subnodesAll]
  | cons part parts ih =>
    have hFirst := h part mem_cons_self next
    obtain ⟨hGrows, hFresh, hSame⟩ := ih (fun p hp => h p (mem_cons_of_mem _ hp))
      (astCloneNode part next).2
    rw [cloneParts]
    refine ⟨Nat.le_trans hFirst.grows hGrows, fun node hNode => ?_, fun hBuilt => ?_⟩
    · rcases mem_append.mp hNode with hNode | hNode
      · exact ⟨hFirst.fresh node hNode, hFirst.listed node hNode⟩
      · obtain ⟨⟨a, hAddress, ha⟩, hListed⟩ := hFresh node hNode
        exact ⟨⟨a, hAddress, Nat.le_trans hFirst.grows ha⟩, hListed⟩
    · rw [AstNode.subnodesAll, forall_mem_append] at hBuilt ⊢
      rw [forall₂_cons, hFirst.same hBuilt.1, hSame hBuilt.2]

theorem clone_spec (original : AstNode) : ∀ next, CopySpec original next := by
  induction original using AstNode.induct with
  | hNull =>
    intro next
    have hNone : ∀ {q : AstNode → Prop}, ∀ node ∈ AstNode.null.subnodes, q node :=
      fun _ h => absurd h not_mem_nil
    exact ⟨Nat.le_refl _, hNone, hNone, fun _ => ⟨fun _ => hNone, fun _ => .null⟩⟩
  | hNode address type data parts children ih =>
    intro next
    obtain ⟨hGrows, hFresh, hSame⟩ := cloneParts_spec ih (next + 1)
    rcases hCopy : data.bind cloneData with _ | copy
    · have hClone : astCloneNode (.node address type data parts children) next =
          (.node next type none [] [], next + 1) := by rw [astCloneNode, hCopy]
      have hOnly : ∀ {q : AstNode → Prop}, q (.node next type none [] []) →
          ∀ node ∈ (AstNode.node next type none [] []).subnodes, q node := fun {q} hq node h => by
        obtain rfl := mem_singleton.mp h
        exact hq
      constructor
      · rw [hClone]
        exact Nat.le_succ next
      · rw [hClone]
        exact hOnly ⟨next, rfl, Nat.le_refl _⟩
      · rw [hClone]
        exact hOnly (.refl _)
      · intro hBuilt
        rw [hClone]
        obtain ⟨-, -, hSome | ⟨rfl, rfl⟩⟩ := hBuilt _ mem_cons_self
        · -- the node has data, and the copy none
          obtain ⟨d, rfl⟩ := isSome_iff_exists.mp hSome
          rw [bind_some, cloneData_eq, ite_eq_left_iff] at hCopy
          refine iff_of_false (fun h => nomatch h) fun h => h _ mem_cons_self ?_
          by_contra hKnown
          exact nomatch hCopy hKnown
        · -- a `return` without value, whose copy is one too
          have hKnown : ASTNodeType.returnStatement ∉
              [.enumDeclaration, .matchStatement, .methodDeclaration] := by decide
          cases data with
          | some d =>
            rw [bind_some, cloneData_eq, if_neg hKnown] at hCopy
            cases hCopy
          | none =>
            refine iff_of_true (.node .nil) fun node hNode => ?_
            obtain rfl := mem_singleton.mp hNode
            exact hKnown
    · obtain ⟨d, rfl, hd⟩ := bind_eq_some_iff.mp hCopy
      rw [cloneData_eq, ite_eq_iff] at hd
      obtain ⟨-, hNone⟩ | ⟨hKnown, hd⟩ := hd
      · cases hNone
      obtain rfl := some.inj hd
      have hClone : astCloneNode (.node address type (some d) parts children) next =
          (.node next type (some d) (cloneParts parts (next + 1)).1
            ((addOrder d (cloneParts parts (next + 1)).1).filterMap AstNode.address?),
            (cloneParts parts (next + 1)).2) := by rw [astCloneNode, hCopy]
      constructor
      · rw [hClone]
        exact Nat.le_of_succ_le hGrows
      · rw [hClone]
        refine forall_mem_cons.mpr ⟨⟨next, rfl, Nat.le_refl _⟩, fun node hNode => ?_⟩
        obtain ⟨⟨a, hAddress, ha⟩, -⟩ := hFresh node hNode
        exact ⟨a, hAddress, Nat.le_of_succ_le ha⟩
      · rw [hClone]
        exact forall_mem_cons.mpr ⟨(addOrder_perm d _).filterMap _,
          fun node hNode => (hFresh node hNode).2⟩
      · intro hBuilt
        rw [hClone, AstNode.subnodes, forall_mem_cons, ← hSame (forall_mem_cons.mp hBuilt).2]
        constructor
        · intro h
          cases h with
          | node h => exact ⟨hKnown, h⟩
        · exact fun h => .node h.2

/-- **What a copy misses.** The copy of a tree that the parser has built is the same tree in new
nodes, with the children its data names, if and only if no node is an enum declaration, a `match`
or a method. -/
theorem clone_faithful_iff {original : AstNode} {next : Nat}
    (hBuilt : ∀ node ∈ original.subnodes, node.Built next) :
    ClonedFaithfully original next ↔ ∀ node ∈ original.subnodes, ¬ node.Forgotten := by
  have hSpec := clone_spec original next
  rw [← hSpec.same fun node hNode => ⟨next, hBuilt node hNode⟩]
  refine ⟨fun h => h.1, fun h => ⟨h, fun node hNode node' hNode' hSame => ?_, hSpec.listed⟩⟩
  obtain ⟨a, hAddress, ha⟩ := hSpec.fresh node hNode
  rw [hAddress] at hSame
  cases node' with
  | null => cases hSame
  | node address type data parts children =>
    obtain rfl := some.inj hSame
    have hOld := (hBuilt _ hNode').1
    omega

/-- `{ if (x) { return; } }`, node by node. -/
def earlyReturn : AstNode :=
  .node 4 .program (some .program) [.node 3 .ifStatement (some .ifStatement)
      [.node 0 .identifier (some (.identifier ['x'])) [] [],
        .node 2 .program (some .program) [.node 1 .returnStatement none [] []] [1], .null] [0, 2]] [3]

theorem clone_faithful_iff_earlyReturn : ClonedFaithfully earlyReturn 5 :=
  (clone_faithful_iff (by
    simp [earlyReturn, AstNode.subnodes, AstNode.subnodesAll, AstNode.Built])).mpr
    (by simp [earlyReturn, AstNode.subnodes, AstNode.subnodesAll, AstNode.Forgotten])

/-- **A `match` is lost.** The copy has no data. -/
theorem match_lost : ¬ ClonedFaithfully (.node 1 .matchStatement (some (.matchStatement [] false))
      [.node 0 .identifier (some (.identifier ['x'])) [] []] [0]) 2 := by
  rintro ⟨h, -⟩
  cases h

end Mettle.Parser
