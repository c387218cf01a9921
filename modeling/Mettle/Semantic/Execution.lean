import Mettle.Lib.StateExcept
import Mettle.Semantic.TypeChecker

/-!
# Mettle — executions of a function body and the locals they read

What a run of a body does to its locals: a declaration makes a new variable,
initialisers and assignments initialise it, and every evaluated occurrence of a
local reads the variable that the innermost declaration in scope made. Values
are left out: which branch, case or arm a run takes, and how often a loop turns,
is a list of choices, so the runs here include every run of the program.

A deferred statement runs when its block is left, in the scope it was written
in. Whether it runs at a given exit is a choice too: an errdefer runs only on
an error return, and a block left by `break` or `continue` is left without its
defers.
-/

namespace Mettle.Semantic

open Mettle.Parser Mettle.Lib

-- ---
-- State
-- ---

abbrev Env := List (Name × Nat)

/-- A run between two steps: the variables made so far, those initialised, the
statements deferred in the current block, newest first, and the choices left. -/
structure Run where
  next : Nat
  initialised : List Nat
  deferred : List (Env × Stmt)
  choices : List Nat

/-- Why a run stops before its end: the choices or the steps it was given are
used up, or it reads a variable that nothing initialised. -/
inductive Stop where
  | unfinished
  | uninitialised (name : Name)
deriving DecidableEq

abbrev Exec := StateT Run (Except Stop)

/-- How a statement is left. -/
inductive Signal where
  | normal
  | breakTo (label : Option Name)
  | continueTo (label : Option Name)
  | returned
deriving DecidableEq

def choose : Exec Nat := do
  let r ← get
  match r.choices with
  | [] => throw .unfinished
  | n :: rest =>
    set { r with choices := rest }
    pure n

def readName (env : Env) (x : Name) : Exec Unit := do
  let r ← get
  match env.lookup x with
  | none => pure ()
  | some cell => if cell ∈ r.initialised then pure () else throw (.uninitialised x)

def allocate (initialised : Bool) : Exec Nat := do
  let r ← get
  set { r with
    next := r.next + 1
    initialised := if initialised then r.next :: r.initialised else r.initialised }
  pure r.next

def assignName (env : Env) (x : Name) : Exec Unit :=
  match env.lookup x with
  | none => pure ()
  | some cell => modify fun r => { r with initialised := cell :: r.initialised }

-- ---
-- Expressions
-- ---

def bindPattern (env : Env) : Pattern → Exec Env
  | .variant _ (some x) => do
    let cell ← allocate true
    pure ((x, cell) :: env)
  | _ => pure env

/-- `sizeof` and `static_assert` are settled by the compiler. -/
def isCompileTime (f : Name) : Bool := f == "sizeof" || f == "static_assert"

mutual

/-- Evaluate an expression. -/
def evalExpr (env : Env) : Expr → Exec Unit
  | .numberLiteral _ _ => pure ()
  | .floatLiteral _ => pure ()
  | .stringLiteral _ => pure ()
  | .identifier x => readName env x
  | .binaryExpression l op r => do
    evalExpr env l
    if op = .logicalAnd ∨ op = .logicalOr then
      if (← choose) = 0 then pure () else evalExpr env r
    else evalExpr env r
  | .unaryExpression _ e => evalExpr env e
  | .functionCall f arguments =>
    if isCompileTime f then pure ()
    else do
      readName env f
      evalArguments env arguments
  | .methodCall object f arguments =>
    if isCompileTime f then pure ()
    else do
      evalExpr env object
      evalArguments env arguments
  | .funcPtrCall function arguments => do
    evalExpr env function
    evalArguments env arguments
  | .memberAccess object _ => evalExpr env object
  | .indexExpression array index => do
    evalExpr env array
    evalExpr env index
  | .newExpression _ => pure ()
  | .castExpression _ operand => evalExpr env operand
  | .matchExpression subject arms => do
    evalExpr env subject
    evalArm env arms (← choose)

def evalArguments (env : Env) : List Expr → Exec Unit
  | [] => pure ()
  | e :: rest => do
    evalExpr env e
    evalArguments env rest

def evalArm (env : Env) : List (Pattern × Expr) → Nat → Exec Unit
  | [], _ => throw .unfinished
  | (pattern, body) :: _, 0 => do
    let env ← bindPattern env pattern
    evalExpr env body
  | _ :: arms, n + 1 => evalArm env arms n

end

mutual

def occurrences : Expr → List (Name × Bool)
  | .numberLiteral _ _ => []
  | .floatLiteral _ => []
  | .stringLiteral _ => []
  | .identifier x => [(x, false)]
  | .binaryExpression l _ r => occurrences l ++ occurrences r
  | .unaryExpression _ e => occurrences e
  | .functionCall f arguments =>
    if isCompileTime f then [] else (f, true) :: argumentOccurrences arguments
  | .methodCall object f arguments =>
    if isCompileTime f then [] else occurrences object ++ argumentOccurrences arguments
  | .funcPtrCall function arguments => occurrences function ++ argumentOccurrences arguments
  | .memberAccess object _ => occurrences object
  | .indexExpression array index => occurrences array ++ occurrences index
  | .newExpression _ => []
  | .castExpression _ operand => occurrences operand
  | .matchExpression subject arms => occurrences subject ++ armOccurrences arms

def argumentOccurrences : List Expr → List (Name × Bool)
  | [] => []
  | e :: rest => occurrences e ++ argumentOccurrences rest

def armOccurrences : List (Pattern × Expr) → List (Name × Bool)
  | [] => []
  | (pattern, body) :: arms =>
    (occurrences body).filter (fun o => pattern.binding != some o.1) ++ armOccurrences arms

end

def evalOptional (env : Env) : Option Expr → Exec Unit
  | none => pure ()
  | some e => evalExpr env e

-- ---
-- Statements
-- ---

mutual

def bareDeclarations : Stmt → List (Name × Option String)
  | .varDeclaration x t _ => [(x, t)]
  | .ifStatement _ thenBranch elseIfs elseBranch =>
    bareDeclarations thenBranch ++ bareElseIfs elseIfs ++ bareElse elseBranch
  | .whileStatement _ _ body => bareDeclarations body
  | _ => []

def bareElseIfs : List (Expr × Stmt) → List (Name × Option String)
  | [] => []
  | (_, body) :: rest => bareDeclarations body ++ bareElseIfs rest

def bareElse : Option Stmt → List (Name × Option String)
  | none => []
  | some s => bareDeclarations s

end

def isAggregateText (Γ : Context) : Option String → Bool
  | none => false
  | some t => (Γ.typeNamed t).any fun r => r.1.isAggregate

def skipDeclarations (Γ : Context) : List (Name × Option String) → Env → Exec Env
  | [], env => pure env
  | (x, t) :: rest, env => do
    let cell ← allocate (isAggregateText Γ t)
    skipDeclarations Γ rest ((x, cell) :: env)

def leavesLoop (label : Option Name) : Signal → Option Signal
  | .normal => none
  | .breakTo none => some .normal
  | .breakTo (some l) => if label = some l then some .normal else some (.breakTo (some l))
  | .continueTo none => none
  | .continueTo (some l) => if label = some l then none else some (.continueTo (some l))
  | .returned => some .returned

def leavesSwitch : Signal → Signal
  | .breakTo none => .normal
  | signal => signal

def execForInitializer (Γ : Context) (env : Env) : Option Stmt → Exec Env
  | some (.varDeclaration x t e) => do
    evalOptional env e
    let cell ← allocate (e.isSome || isAggregateText Γ t)
    pure ((x, cell) :: env)
  | some (.assignment x e) => do
    evalExpr env e
    assignName env x
    pure env
  | some (.targetAssignment target e) => do
    evalExpr env e
    evalExpr env target
    pure env
  | some (.expression e) => do
    evalExpr env e
    pure env
  | _ => pure env

mutual

/-- Run a statement for at most `fuel` nested steps: how it is left, and the
locals in scope after it. -/
def execStatement (Γ : Context) : Nat → Env → Stmt → Exec (Signal × Env)
  | 0, _, _ => throw .unfinished
  | _ + 1, env, .varDeclaration x t e => do
    evalOptional env e
    let cell ← allocate (e.isSome || isAggregateText Γ t)
    pure (.normal, (x, cell) :: env)
  | _ + 1, env, .assignment x e => do
    evalExpr env e
    assignName env x
    pure (.normal, env)
  | _ + 1, env, .targetAssignment target e => do
    evalExpr env e
    evalExpr env target
    pure (.normal, env)
  | _ + 1, env, .expression e => do
    evalExpr env e
    pure (.normal, env)
  | _ + 1, env, .returnStatement e => do
    evalOptional env e
    pure (.returned, env)
  | fuel + 1, env, .ifStatement condition thenBranch elseIfs elseBranch => do
    evalExpr env condition
    if (← choose) = 0 then
      let env ← skipDeclarations Γ (bareDeclarations thenBranch) env
      execElseIfs Γ fuel env elseIfs elseBranch
    else
      let (signal, env) ← execStatement Γ fuel env thenBranch
      let env ← skipDeclarations Γ (bareElseIfs elseIfs ++ bareElse elseBranch) env
      pure (signal, env)
  | fuel + 1, env, .whileStatement label condition body => do
    let unentered ← skipDeclarations Γ (bareDeclarations body) env
    execWhile Γ fuel env unentered label condition body
  | fuel + 1, env, .forStatement label initializer condition increment body => do
    let header ← execForInitializer Γ env initializer
    let signal ← execFor Γ fuel header label condition increment body
    pure (signal, env)
  | fuel + 1, env, .switchStatement e cases => do
    evalExpr env e
    let k ← choose
    let signal ← execCases Γ fuel env (cases.drop k)
    pure (leavesSwitch signal, env)
  | fuel + 1, env, .matchStatement e arms => do
    evalExpr env e
    let k ← choose
    match arms[k]? with
    | none => throw .unfinished
    | some (pattern, body) =>
      let inner ← bindPattern env pattern
      let signal ← execBlock Γ fuel inner body
      pure (signal, env)
  | _ + 1, env, .breakStatement label => pure (.breakTo label, env)
  | _ + 1, env, .continueStatement label => pure (.continueTo label, env)
  | _ + 1, env, .deferStatement s => do
    modify fun r => { r with deferred := (env, s) :: r.deferred }
    pure (.normal, env)
  | _ + 1, env, .errdeferStatement s => do
    modify fun r => { r with deferred := (env, s) :: r.deferred }
    pure (.normal, env)
  | _ + 1, env, .inlineAsm _ => pure (.normal, env)
  | fuel + 1, env, .block statements => do
    let signal ← execBlock Γ fuel env statements
    pure (signal, env)

def execStatements (Γ : Context) : Nat → Env → List Stmt → Exec Signal
  | 0, _, _ => throw .unfinished
  | _ + 1, _, [] => pure .normal
  | fuel + 1, env, s :: rest => do
    let (signal, env) ← execStatement Γ fuel env s
    if signal = .normal then execStatements Γ fuel env rest else pure signal

def execBlock (Γ : Context) : Nat → Env → List Stmt → Exec Signal
  | 0, _, _ => throw .unfinished
  | fuel + 1, env, statements => do
    let outer := (← get).deferred
    modify fun r => { r with deferred := [] }
    let signal ← execStatements Γ fuel env statements
    let registered := (← get).deferred
    modify fun r => { r with deferred := [] }
    execDeferred Γ fuel registered
    modify fun r => { r with deferred := outer }
    pure signal

def execDeferred (Γ : Context) : Nat → List (Env × Stmt) → Exec Unit
  | 0, _ => throw .unfinished
  | _ + 1, [] => pure ()
  | fuel + 1, (env, s) :: rest => do
    if (← choose) = 0 then execDeferred Γ fuel rest
    else
      let _ ← execStatement Γ fuel env s
      execDeferred Γ fuel rest

def execElseIfs (Γ : Context) : Nat → Env → List (Expr × Stmt) → Option Stmt → Exec (Signal × Env)
  | 0, _, _, _ => throw .unfinished
  | _ + 1, env, [], none => pure (.normal, env)
  | fuel + 1, env, [], some s => execStatement Γ fuel env s
  | fuel + 1, env, (condition, body) :: rest, elseBranch => do
    evalExpr env condition
    if (← choose) = 0 then
      let env ← skipDeclarations Γ (bareDeclarations body) env
      execElseIfs Γ fuel env rest elseBranch
    else
      let (signal, env) ← execStatement Γ fuel env body
      let env ← skipDeclarations Γ (bareElseIfs rest ++ bareElse elseBranch) env
      pure (signal, env)

/-- A while loop from its head: every turn starts in the scope of the head, and
`last` is the scope the turn before it left. -/
def execWhile (Γ : Context) : Nat → Env → Env → Option Name → Expr → Stmt → Exec (Signal × Env)
  | 0, _, _, _, _, _ => throw .unfinished
  | fuel + 1, env, last, label, condition, body => do
    evalExpr env condition
    if (← choose) = 0 then pure (.normal, last)
    else
      let (signal, env') ← execStatement Γ fuel env body
      match leavesLoop label signal with
      | some out => pure (out, env')
      | none => execWhile Γ fuel env env' label condition body

def execFor (Γ : Context) : Nat → Env → Option Name → Option Expr → Option Stmt → Stmt → Exec Signal
  | 0, _, _, _, _, _ => throw .unfinished
  | fuel + 1, env, label, condition, increment, body => do
    evalOptional env condition
    if condition.isSome ∧ (← choose) = 0 then pure .normal
    else
      let (signal, _) ← execStatement Γ fuel env body
      match leavesLoop label signal with
      | some out => pure out
      | none =>
        let _ ← execForInitializer Γ env increment
        execFor Γ fuel env label condition increment body

def execCases (Γ : Context) : Nat → Env → List (Option Expr × List Stmt) → Exec Signal
  | 0, _, _ => throw .unfinished
  | _ + 1, _, [] => pure .normal
  | fuel + 1, env, (_, body) :: rest => do
    let signal ← execBlock Γ fuel env body
    if signal = .normal then execCases Γ fuel env rest else pure signal

end

def parameterEnv (parameters : List (Name × Ty)) : Env :=
  (parameters.map Prod.fst).zipIdx.reverse

def execFunction (Γ : Context) (parameters : List (Name × Ty)) (body : Stmt) (fuel : Nat)
    (choices : List Nat) : Except Stop (Signal × Run) :=
  (execStatement Γ fuel (parameterEnv parameters) body
    { next := parameters.length
      initialised := List.range parameters.length
      deferred := []
      choices := choices }).map fun p => (p.1.1, p.2)

end Mettle.Semantic
