import Mettle.Semantic.TypeChecker

/-!
# Mettle — checking a program

The third pass of `type_checker_check_program`: types and function signatures
are registered, and the declarations are processed in order. A declaration at
top level is checked with the global scope as its current one; the body of a
function is checked in a scope of its own, against the signature that was
registered for its name.

Signatures stand here with the types their texts denote. Methods written inside
a struct are neither checked nor compiled and are left out.
-/

namespace Mettle.Semantic

open Mettle.Parser

/-- A declaration that the third pass processes. -/
inductive Declaration where
  | varDeclaration (name : Name) (typeName : Option String) (initializer : Option Expr)
      (isExtern : Bool) (linkName : Option String)
  | functionDeclaration (name : Name) (parameters : List (Name × Ty)) (returnType : Ty)
      (body : Option Stmt)
  | assignment (name : Name) (value : Expr)
  | targetAssignment (target value : Expr)
  | staticAssert (arguments : List Expr)
  | inlineAsm (code : String)

/-- The global part of the symbol table: the context with its global scope, the
functions that have no definition yet, and the link names of the extern
variables. -/
structure Top where
  context : Context
  forward : List Name
  externs : List (Name × String)

def Context.top (Γ : Context) : Context := { Γ with globals := [] }

def topState (Γ : Context) : Checker where
  scopes := [Γ.globals]
  tracked := []
  markers := []
  loopDepth := 0
  switchDepth := 0

def Top.leave (top : Top) (c : Checker) : Top :=
  { top with context := { top.context with globals := c.scopes.headD [] } }

/-- `type_checker_decl_link_name`. -/
def declLinkName (name : Name) (isExtern : Bool) (linkName : Option String) : String :=
  match isExtern, linkName with
  | true, some l => if l = "" then name else l
  | _, _ => name

def checkRedeclaration (externs : List (Name × String)) (x : Name) (t : Ty) (isExtern : Bool)
    (linkName : Option String) : Symbol → Except String Unit
  | .var t' _ =>
    match externs.lookup x, isExtern with
    | some _, false | none, true =>
      .error s!"Variable '{x}' redeclared with conflicting extern/non-extern linkage"
    | none, false => .error s!"Duplicate declaration of '{x}'"
    | some link, true =>
      if !t'.typesEqual t then .error s!"Extern variable '{x}' redeclared with conflicting type"
      else if link ≠ declLinkName x true linkName then
        .error s!"Extern variable '{x}' redeclared with conflicting link name"
      else .ok ()
  | _ => .error s!"Duplicate declaration of '{x}'"

def checkExternForm (x : Name) (typeName : Option String) (initializer : Option Expr)
    (isExtern : Bool) (linkName : Option String) : Except String Unit :=
  if linkName.isSome && !isExtern then
    .error "Link-name suffix is only allowed on extern declarations"
  else if isExtern && initializer.isSome then
    .error s!"Extern variable '{x}' cannot have an initializer"
  else if isExtern && typeName.isNone then
    .error s!"Extern variable '{x}' requires an explicit type annotation"
  else .ok ()

/-- The `AST_VAR_DECLARATION` case of `type_checker_process_declaration`, at top
level: whether the name is new. -/
def processGlobalVariable (Γ : Context) (externs : List (Name × String)) (x : Name)
    (typeName : Option String) (initializer : Option Expr) (isExtern : Bool)
    (linkName : Option String) : Check Bool := do
  liftM (checkExternForm x typeName initializer isExtern linkName)
  let annotated ← resolveAnnotated Γ typeName
  let t ← declaredType Γ x annotated initializer
  match Γ.lookup (← get) x with
  | some (symbol, _) =>
    liftM (checkRedeclaration externs x t isExtern linkName symbol)
    pure false
  | none =>
    declareVariable x t
    pure true

def functionSignature (top : Top) (f : Name) (parameters : List (Name × Ty)) (returnType : Ty) :
    Except String (List Ty × Ty) :=
  match top.context.globals.lookup f with
  | none => .ok (parameters.map Prod.snd, returnType)
  | some (.function types r) =>
    if f ∈ top.forward ∧ types.length = parameters.length ∧ r.typesEqual returnType = true ∧
        Ty.typesEqualList types (parameters.map Prod.snd) = true then
      .ok (types, r)
    else .error s!"Function definition for '{f}' does not match existing declaration"
  | some _ => .error s!"Duplicate declaration of '{f}'"

def signatureParameters (parameters : List (Name × Ty)) (types : List Ty) : List (Name × Ty) :=
  (parameters.map Prod.fst).zip types

/-- Registers a function; the first signature of a name stays. -/
def Top.register (top : Top) (f : Name) (types : List Ty) (returnType : Ty) (isForward : Bool) :
    Top :=
  { top with
    context := { top.context with
      globals :=
        if (top.context.globals.lookup f).isSome then top.context.globals
        else (f, .function types returnType) :: top.context.globals }
    forward := if isForward then f :: top.forward else top.forward.filter (· ≠ f) }

/-- `type_checker_process_declaration`. -/
def processDeclaration (top : Top) : Declaration → Except String Top
  | .varDeclaration x typeName initializer isExtern linkName => do
    let Γ := top.context.top
    let (isNew, c) ← processGlobalVariable Γ top.externs x typeName initializer isExtern linkName
      (topState top.context)
    let externs :=
      if isNew && isExtern then (x, declLinkName x isExtern linkName) :: top.externs
      else top.externs
    pure { top.leave c with externs := externs }
  | .functionDeclaration f parameters returnType body => do
    let (types, r) ← functionSignature top f parameters returnType
    match body with
    | none => pure (top.register f types r true)
    | some body => do
      let registered := top.register f types r false
      let _ ← checkFunctionBody { registered.context with returnType := r }
        (signatureParameters parameters types) body
      pure registered
  | .assignment x value => do
    let (_, c) ← processAssignment top.context.top x value (topState top.context)
    pure (top.leave c)
  | .targetAssignment target value => do
    let (_, c) ← processTargetAssignment top.context.top target value (topState top.context)
    pure (top.leave c)
  | .staticAssert arguments => do
    let (_, c) ← validateStaticAssert top.context.top arguments (topState top.context)
    pure (top.leave c)
  | .inlineAsm _ => pure top

/-- The third pass of `type_checker_check_program`. -/
def checkProgram : Top → List Declaration → Except String Top
  | top, [] => pure top
  | top, d :: rest => do
    let top ← processDeclaration top d
    checkProgram top rest

end Mettle.Semantic
