import Mettle.Lexing.Lexer

/-!
# Mettle — the syntax tree

`ASTNode` as the passes over whole programs see it: the kind of a node with its
own data, and its children in the order in which the node's constructor adds
them. A data field that points to a child (`initializer`, `body`, `arguments`)
is that child; a field that may be missing is a flag in the data.

Source locations and cached types are left out, and so is data that no pass over
trees reads.

For the function bodies there are also the node kinds that `parser_parse_statement` and
`parser_parse_expression` build, as types of their own. Type annotations stay text, as in the
source. A compound assignment has no node of its own: the parser rewrites `target OP= value` to
`target = target OP value`.
-/

namespace Mettle.Parser

open Lexing

-- ---
-- Nodes
-- ---

/-- `EnumVariant`; its value, where it has one, is a child of the declaration. -/
structure EnumVariant where
  name : Text
  hasValue : Bool
  payloadType : Option Text
deriving DecidableEq

/-- `MatchArm`; its body is a child of the match. -/
structure MatchArm where
  variantName : Option Text
  bindingName : Option Text
  isDefault : Bool
deriving DecidableEq

/-- `FunctionDeclaration`, for functions and methods; the body is a child. -/
structure FunctionHeader where
  name : Text
  parameterNames : List Text
  parameterTypes : List Text
  returnType : Option Text
  isExported : Bool := false
  typeParams : List Text := []
  typeParamTraits : List (Option Text) := []
deriving DecidableEq

/-- The kinds of `ASTNodeType` with their data. -/
inductive NodeData where
  /-- Also a block of statements. -/
  | program
  | importDeclaration (moduleName : Text) (namespaceAlias : Option Text)
      (selectedNames : List Text)
  | importStr (filePath : Text)
  /-- Child: the initialiser, if there is one. -/
  | varDeclaration (name : Text) (typeName : Option Text) (isExported : Bool)
  /-- Child: the body, if there is one. -/
  | functionDeclaration (header : FunctionHeader)
  /-- Children: the methods. -/
  | structDeclaration (name : Text) (fieldTypes : List Text) (isExported : Bool)
      (typeParams : List Text) (typeParamTraits : List (Option Text))
  /-- Children: the values of the variants that have one. -/
  | enumDeclaration (name : Text) (variants : List EnumVariant) (isExported : Bool)
  /-- Children: the methods. -/
  | traitDeclaration (name : Text) (isExported : Bool)
  /-- Children: the methods. -/
  | implDeclaration (traitName forTypeName : Text)
  /-- Child: the body, if there is one. -/
  | methodDeclaration (header : FunctionHeader)
  /-- Children: the target of a field assignment, then the value. -/
  | assignment (variableName : Option Text) (hasTarget : Bool)
  /-- Children: the arguments, then the object of a method call. -/
  | functionCall (functionName : Text) (typeArgs : List Text) (hasObject : Bool)
  /-- Children: the function, then the arguments. -/
  | funcPtrCall
  /-- Child: the value, if there is one. -/
  | returnStatement
  /-- Children: condition and branch, condition and body of each `else if`, and
  the branch of the `else`. -/
  | ifStatement
  /-- Children: condition and body. -/
  | whileStatement (label : Option Text)
  /-- Children: initialiser, condition and increment where they are given, then
  the body. -/
  | forStatement (label : Option Text)
  /-- Children: the clauses, then the expression. -/
  | switchStatement
  /-- Children: the value, unless it is the default clause, and the body. -/
  | caseClause (isDefault : Bool)
  /-- Children: the expression, then the bodies of the arms. -/
  | matchStatement (arms : List MatchArm) (isExpression : Bool)
  | breakStatement (targetLabel : Option Text)
  | continueStatement (targetLabel : Option Text)
  /-- Child: the statement. -/
  | deferStatement
  /-- Child: the statement. -/
  | errdeferStatement
  | inlineAsm (assemblyCode : Text)
  | identifier (name : Text)
  | numberLiteral (value : Int)
  | floatLiteral (value : Text)
  | stringLiteral (value : Text)
  /-- Children: the operands. -/
  | binaryExpression (operator : Text)
  /-- Child: the operand. -/
  | unaryExpression (operator : Text)
  /-- Child: the object. -/
  | memberAccess (member : Text)
  /-- Children: array and index. -/
  | indexExpression
  | newExpression (typeName : Text)
  /-- Child: the operand. -/
  | castExpression (typeName : Text)
deriving DecidableEq

/-- `ASTNode`. -/
inductive Tree where
  | node (data : NodeData) (children : List Tree)

namespace Tree

theorem induct {p : Tree → Prop} (h : ∀ data children, (∀ c ∈ children, p c) →
    p (.node data children)) (t : Tree) : p t :=
  @Tree.rec p (fun children => ∀ c ∈ children, p c) h (fun _ hc => absurd hc List.not_mem_nil)
    (fun _ _ hHead hTail => List.forall_mem_cons.mpr ⟨hHead, hTail⟩) t

mutual

/-- What `f` finds at each node, in the order of the children: a node before its
children. -/
def collect {α : Type} (f : NodeData → List α) : Tree → List α
  | .node data children => f data ++ collectAll f children

def collectAll {α : Type} (f : NodeData → List α) : List Tree → List α
  | [] => []
  | t :: ts => collect f t ++ collectAll f ts

end

theorem mem_collectAll {α : Type} {f : NodeData → List α} {ts : List Tree} {a : α} :
    a ∈ collectAll f ts ↔ ∃ t ∈ ts, a ∈ collect f t := by
  induction ts with
  | nil => simp [collectAll]
  | cons t ts ih => simp [collectAll, ih]

end Tree

-- ---
-- Function bodies
-- ---

abbrev Name := String

/-- Operators of `AST_BINARY_EXPRESSION`. -/
inductive BinaryOp where
  | add | sub | mul | div | mod
  | bitAnd | bitOr | bitXor | shl | shr
  | eq | ne | lt | le | gt | ge
  | logicalAnd | logicalOr
deriving DecidableEq

/-- Operators of `AST_UNARY_EXPRESSION`. -/
inductive UnaryOp where
  | plus | minus | bitNot | logicalNot | addressOf | deref
deriving DecidableEq

/-- What stands before the colon of a match arm. -/
inductive Pattern where
  | variant (variantName : Name) (bindingName : Option Name)
  | default
deriving DecidableEq

def Pattern.binding : Pattern → Option Name
  | .variant _ binding => binding
  | .default => none

/-- Expressions. -/
inductive Expr where
  | numberLiteral (value : Int) (radix : Nat)
  | floatLiteral (bits : Nat)
  | stringLiteral (value : String)
  | identifier (name : Name)
  | binaryExpression (left : Expr) (op : BinaryOp) (right : Expr)
  | unaryExpression (op : UnaryOp) (operand : Expr)
  | functionCall (functionName : Name) (arguments : List Expr)
  | methodCall (object : Expr) (functionName : Name) (arguments : List Expr)
  | funcPtrCall (function : Expr) (arguments : List Expr)
  | memberAccess (object : Expr) (member : Name)
  | indexExpression (array index : Expr)
  | newExpression (typeName : String)
  | castExpression (typeName : String) (operand : Expr)
  | matchExpression (expression : Expr) (arms : List (Pattern × Expr))

/-- Statements. -/
inductive Stmt where
  | varDeclaration (name : Name) (typeName : Option String) (initializer : Option Expr)
  | assignment (variableName : Name) (value : Expr)
  | targetAssignment (target value : Expr)
  | expression (expr : Expr)
  | returnStatement (value : Option Expr)
  | ifStatement (condition : Expr) (thenBranch : Stmt) (elseIfs : List (Expr × Stmt))
      (elseBranch : Option Stmt)
  | whileStatement (label : Option Name) (condition : Expr) (body : Stmt)
  | forStatement (label : Option Name) (initializer : Option Stmt) (condition : Option Expr)
      (increment : Option Stmt) (body : Stmt)
  | switchStatement (expr : Expr) (cases : List (Option Expr × List Stmt))
  | matchStatement (expr : Expr) (arms : List (Pattern × List Stmt))
  | breakStatement (targetLabel : Option Name)
  | continueStatement (targetLabel : Option Name)
  | deferStatement (statement : Stmt)
  | errdeferStatement (statement : Stmt)
  | inlineAsm (assemblyCode : String)
  | block (statements : List Stmt)

end Mettle.Parser
