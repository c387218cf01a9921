import Mettle.Semantic.Types

/-!
# Mettle — checking a function body

`type_checker_infer_type` and `type_checker_check_statement` with the
declarations they reach, over an explicit checker state: the stack of local
scopes, the initialisation tracker, and the loop and switch depths.

What the text of a type denotes is a parameter of the context. Resolving a text
such as `Option<int32>` also puts the instance and the constructors that are not
visible yet into the current scope, as `type_checker_instantiate_generic_enum`
does. Buffer extents, which only feed warnings, are left out.
-/

namespace Mettle.Semantic

open Mettle.Parser

-- ---
-- State
-- ---

/-- One entry of `tracked_var_names` and `tracked_var_initialized`. -/
structure Tracked where
  name : Name
  initialized : Bool
deriving DecidableEq

/-- The part of `TypeChecker` that changes while a body is checked. -/
structure Checker where
  scopes : List Scope
  tracked : List Tracked
  markers : List Nat
  loopDepth : Nat
  switchDepth : Nat

/-- A generic enum instance that a type text needs. -/
structure Instance where
  mangledName : Name
  type : Ty
  constructors : List (Name × Option Ty)

/-- What stays fixed while a body is checked: the global scope, what a type text
denotes and where a local name hides it, the layouts of the declared types, and
the return type of the current function. -/
structure Context where
  globals : Scope
  typeNamed : String → Option (Ty × List Instance)
  hides : List Scope → String → Bool
  typeSize : Ty → Nat
  structFields : Name → List (Name × Ty)
  taggedVariants : Name → List (Name × Option Ty)
  returnType : Ty

abbrev Check := StateT Checker (Except String)

-- ---
-- Symbol table
-- ---

/-- The local part of `symbol_table_lookup`: innermost scope first. -/
def lookupScopes : List Scope → Name → Option Symbol
  | [], _ => none
  | scope :: rest, x =>
    match scope.lookup x with
    | some symbol => some symbol
    | none => lookupScopes rest x

/-- `symbol_table_lookup`, with whether the symbol stands in a local scope. -/
def Context.lookup (Γ : Context) (c : Checker) (x : Name) : Option (Symbol × Bool) :=
  match lookupScopes c.scopes x with
  | some symbol => some (symbol, true)
  | none => (Γ.globals.lookup x).map fun symbol => (symbol, false)

/-- `symbol_table_insert`: into the current scope. -/
def Checker.insert (c : Checker) (x : Name) (symbol : Symbol) : Checker :=
  match c.scopes with
  | [] => c
  | scope :: rest => { c with scopes := ((x, symbol) :: scope) :: rest }

def Context.insertMissing (Γ : Context) (c : Checker) (x : Name) (symbol : Symbol) : Checker :=
  if (Γ.lookup c x).isSome then c else c.insert x symbol

/-- `type_checker_instantiate_generic_enum`: an instance that is visible is
reused; a new one brings the constructors that are not visible. -/
def Context.instantiate (Γ : Context) (c : Checker) (i : Instance) : Checker :=
  if (Γ.lookup c i.mangledName).isSome then c
  else
    i.constructors.foldl (fun c v => Γ.insertMissing c v.1 (.constructor i.type v.2))
      (Γ.insertMissing c i.mangledName (.typeSymbol i.type))

/-- `type_checker_get_type_by_name`. -/
def Context.typeByName (Γ : Context) (c : Checker) (t : String) : Option (Ty × Checker) :=
  if Γ.hides c.scopes t then none
  else (Γ.typeNamed t).map fun r => (r.1, r.2.foldl Γ.instantiate c)

def resolveType (Γ : Context) (t message : String) : Check Ty := do
  match Γ.typeByName (← get) t with
  | some (type, c) =>
    set c
    pure type
  | none => throw message

-- ---
-- Initialisation tracker
-- ---

/-- `type_checker_init_tracker_is_initialized`: `none` for a name that is not
tracked. -/
def Checker.isInitialized (c : Checker) (x : Name) : Option Bool :=
  (c.tracked.find? fun v => v.name == x).map Tracked.initialized

def setInitialized (x : Name) : List Tracked → List Tracked
  | [] => []
  | v :: rest =>
    if v.name = x then { v with initialized := true } :: rest else v :: setInitialized x rest

/-- `type_checker_init_tracker_set_initialized`. -/
def Checker.setInitialized (c : Checker) (x : Name) : Checker :=
  { c with tracked := Semantic.setInitialized x c.tracked }

/-- `type_checker_init_tracker_declare`. -/
def Checker.declareTracked (c : Checker) (x : Name) (initialized : Bool) : Checker :=
  { c with tracked := ⟨x, initialized⟩ :: c.tracked }

/-- `type_checker_init_tracker_capture`. -/
def capture (tracked : List Tracked) : List Bool := tracked.map Tracked.initialized

/-- `type_checker_init_tracker_restore`: the oldest `limit` entries take the
flags of the snapshot, newer ones keep theirs. -/
def restore (tracked : List Tracked) (snapshot : List Bool) : List Tracked :=
  let limit := min snapshot.length tracked.length
  tracked.take (tracked.length - limit) ++
    List.zipWith (fun v flag => { v with initialized := flag })
      (tracked.drop (tracked.length - limit)) (snapshot.drop (snapshot.length - limit))

def restoreSnapshot (snapshot : List Bool) : Check Unit :=
  modify fun c => { c with tracked := restore c.tracked snapshot }

/-- A scope, and a mark for what it declares. -/
def Checker.enterScope (c : Checker) : Checker :=
  { c with scopes := [] :: c.scopes, markers := c.tracked.length :: c.markers }

/-- Drops a scope with what it declared. -/
def Checker.exitScope (c : Checker) : Checker :=
  { c with
    scopes := c.scopes.tail
    tracked := c.tracked.drop (c.tracked.length - c.markers.headD 0)
    markers := c.markers.tail }

/-- `loop_depth++`. -/
def Checker.enterLoop (c : Checker) : Checker := { c with loopDepth := c.loopDepth + 1 }

/-- `loop_depth--`. -/
def Checker.exitLoop (c : Checker) : Checker := { c with loopDepth := c.loopDepth - 1 }

/-- `switch_depth++`. -/
def Checker.enterSwitch (c : Checker) : Checker := { c with switchDepth := c.switchDepth + 1 }

/-- `switch_depth--`. -/
def Checker.exitSwitch (c : Checker) : Checker := { c with switchDepth := c.switchDepth - 1 }

def withBinding {α : Type} (binding : Option (Name × Ty)) (action : Check α) : Check α :=
  match binding with
  | none => action
  | some (x, t) => do
    modify fun c => { c with scopes := [(x, .var t true)] :: c.scopes }
    let result ← action
    modify fun c => { c with scopes := c.scopes.tail }
    pure result

-- ---
-- Expressions
-- ---

/-- The message of `type_checker_report_type_mismatch`. -/
def typeMismatch (expected found : String) : String :=
  s!"Type mismatch: expected '{expected}', found '{found}'"

/-- A move of a value into a location of type `dest`: the constant zero goes
into any pointer, where the caller allows it. -/
def requireAssignable (nullAllowed : Bool) (dest src : Ty) (value : Expr) : Except String Unit :=
  if nullAllowed && dest.isPointer && isNullPointerConstant value then .ok ()
  else if dest.isAssignable src then .ok ()
  else .error (typeMismatch dest.name src.name)

/-- The identifier case of `type_checker_infer_type`. -/
def inferIdentifier (Γ : Context) (x : Name) : Check Ty := do
  let c ← get
  match Γ.lookup c x with
  | none => throw s!"Undefined variable '{x}'"
  | some (.var t _, true) =>
    if !t.isAggregate && c.isInitialized x == some false then
      throw s!"Variable '{x}' may be used before initialization"
    else pure t
  | some (symbol, _) => pure symbol.type

/-- `type_checker_check_binary_expression`, once both operands have a type. -/
def checkBinaryExpression (l : Expr) (left : Ty) (op : BinaryOp) (r : Expr) (right : Ty) :
    Except String Ty :=
  let numeric : Except String Unit :=
    if !left.isNumericType then .error (typeMismatch "numeric type" left.name)
    else if !right.isNumericType then .error (typeMismatch "numeric type" right.name)
    else .ok ()
  let integers : Except String Unit :=
    if !left.isIntegerType then .error (typeMismatch "integer type" left.name)
    else if !right.isIntegerType then .error (typeMismatch "integer type" right.name)
    else .ok ()
  let pointerArithmetic : Except String Ty :=
    .error ("Pointer arithmetic requires pointer +/- integer or pointer - " ++
      "pointer of same type")
  let leftName := left.name
  let rightName := right.name
  let comparable (ok : Bool) : Except String Ty :=
    if ok then .ok .bool else .error s!"Cannot compare '{leftName}' with '{rightName}'"
  let equality : Except String Ty :=
    if left.isPointer || right.isPointer then
      comparable ((left.isPointer && right.isPointer && left.typesEqual right) ||
        (left.isPointer && isNullPointerConstant r) ||
        (right.isPointer && isNullPointerConstant l))
    else comparable (left.areCompatible right)
  let ordering : Except String Ty :=
    if left.isPointer || right.isPointer then
      .error "Pointer ordering comparisons are not supported"
    else comparable (left.areCompatible right)
  match op with
  | .add =>
    if left.typesEqual .string && right.typesEqual .string then .ok .string
    else if left.isPointer || right.isPointer then
      if left.isPointer && right.isIntegerType then .ok left
      else if right.isPointer && left.isIntegerType then .ok right
      else pointerArithmetic
    else do numeric; pure (left.promoteTypes right op)
  | .sub =>
    if left.isPointer || right.isPointer then
      if left.isPointer && right.isIntegerType then .ok left
      else if left.isPointer && right.isPointer && left.typesEqual right then .ok .int64
      else pointerArithmetic
    else do numeric; pure (left.promoteTypes right op)
  | .mul | .div => do numeric; pure (left.promoteTypes right op)
  | .mod => do numeric; integers; pure (left.promoteTypes right op)
  | .bitAnd | .bitOr | .bitXor | .shl | .shr => do integers; pure (left.promoteTypes right op)
  | .eq | .ne => equality
  | .lt | .le | .gt | .ge => ordering
  | .logicalAnd | .logicalOr =>
    if !left.isNumericType then .error (typeMismatch "bool or numeric type" left.name)
    else if !right.isNumericType then .error (typeMismatch "bool or numeric type" right.name)
    else .ok .bool

/-- The unary operators other than `&`, once the operand has a type. -/
def checkUnaryExpression (op : UnaryOp) (operand : Expr) (t : Ty) : Except String Ty :=
  match op with
  | .plus | .minus =>
    if t.isNumericType then .ok t else .error (typeMismatch "numeric type" t.name)
  | .bitNot => if t.isIntegerType then .ok t else .error (typeMismatch "integer type" t.name)
  | .logicalNot =>
    if t.isNumericType || t.isPointer then .ok .int32
    else .error (typeMismatch "numeric or pointer type" t.name)
  | .deref =>
    if isNullPointerConstant operand then .error "Null pointer dereference"
    else
      match t with
      | .pointer _ base => .ok base
      | _ => .error "Dereference operator requires a pointer operand"
  | .addressOf => .error "Address-of operator requires an assignable expression"

def functionNamed (Γ : Context) (c : Checker) : Expr → Option (List Ty × Ty)
  | .identifier x =>
    match Γ.lookup c x with
    | some (.function parameters returnType, _) => some (parameters, returnType)
    | _ => none
  | _ => none

/-- The signature a call through an expression of type `t` has: a name of a
function stands for a pointer to it. -/
def calleeSignature (Γ : Context) (c : Checker) (function : Expr) (t : Ty) :
    Option (List Ty × Ty) :=
  match t with
  | .functionPointer parameters returnType => some (parameters, returnType)
  | _ => functionNamed Γ c function

def callSignature (f : Name) (symbol : Symbol) (count : Nat) :
    Except String (List Ty × Bool × Ty) :=
  match symbol with
  | .var (.functionPointer parameters returnType) _ =>
    let expected := parameters.length
    if count = expected then .ok (parameters, true, returnType)
    else .error s!"Function pointer expects {expected} arguments, got {count}"
  | .constructor enumType payloadType =>
    let expected := payloadType.toList.length
    if count = expected then .ok (payloadType.toList, false, enumType)
    else .error s!"Constructor '{f}' expects {expected} arguments, got {count}"
  | .function parameters returnType =>
    let expected := parameters.length
    if count = expected then .ok (parameters, true, returnType)
    else .error s!"Function '{f}' expects {expected} arguments, got {count}"
  | .var _ _ => .error s!"'{f}' is a variable, not a function"
  | .typeSymbol (.struct _) => .error s!"'{f}' is a struct, not a function"
  | _ => .error s!"'{f}' is a symbol, not a function"

/-- `type_checker_resolve_sizeof_argument`. -/
def inferSizeof (Γ : Context) : List Expr → Check Ty
  | [.identifier t] => do
    let _ ← resolveType Γ t s!"Unknown type '{t}' in sizeof"
    pure .int64
  | [_] => throw "sizeof expects a type name"
  | _ => throw "sizeof expects exactly one type argument"

def Context.constantValue (Γ : Context) (c : Checker) (x : Name) : Option Int :=
  match Γ.lookup c x with
  | some (.constant _ v, _) => some v
  | _ => none

/-- `type_checker_validate_static_assert`. -/
def validateStaticAssert (Γ : Context) : List Expr → Check Ty
  | [condition] => do
    let c ← get
    match evalIntegerConstantWith (Γ.constantValue c)
        (fun t => (Γ.typeByName c t).map fun r => Γ.typeSize r.1) condition with
    | none => throw "static_assert condition must be a compile-time integer expression"
    | some v => if v = 0 then throw "static_assert failed" else pure .void
  | _ => throw "static_assert expects exactly one condition"

/-- `type_checker_method_receiver_struct_type`. -/
def receiverStruct : Ty → Option Name
  | .struct s => some s
  | .pointer _ (.struct s) => some s
  | _ => none

/-- `type_get_field_type`; a string has its two built-in fields. -/
def fieldType (Γ : Context) (t : Ty) (field : Name) : Except String Ty :=
  let typeName := t.name
  match t with
  | .struct s =>
    match (Γ.structFields s).lookup field with
    | some fieldType => .ok fieldType
    | none => .error s!"Field '{field}' not found in type '{typeName}'"
  | .string =>
    if field = "chars" then .ok (.pointer "uint8*" .uint8)
    else if field = "length" then .ok .uint64
    else .error s!"Field '{field}' not found in type '{typeName}'"
  | _ => .error s!"Cannot access field on non-struct type '{typeName}'"

def checkIndex (array : Expr) (t : Ty) (index : Expr) (indexType : Ty) : Except String Ty :=
  if !indexType.isIntegerType then .error (typeMismatch "integer type" indexType.name)
  else
    match t with
    | .pointer _ base =>
      if isNullPointerConstant array then .error "Null pointer dereference" else .ok base
    | .array name base size =>
      match evalIntegerConstant index with
      | some v =>
        if v < 0 ∨ (size : Int) ≤ v then
          .error s!"Array index {v} is out of bounds for '{name}' (size {size})"
        else .ok base
      | none => .ok base
    | _ =>
      let typeName := t.name
      .error s!"Cannot index non-array type '{typeName}'"

def checkPattern (typeName : String) (variants : List (Name × Option Ty)) (covered : List Nat) :
    Pattern → Except String (List Nat × Option (Name × Ty))
  | .default => .ok (covered, none)
  | .variant v binding =>
    match variants.findIdx? fun w => w.1 == v with
    | none => .error s!"Unknown variant '{v}' for type '{typeName}' in match"
    | some i =>
      if i ∈ covered then .error s!"Duplicate match arm for variant '{v}'"
      else
        match binding with
        | none => .ok (i :: covered, none)
        | some x =>
          match variants[i]?.bind Prod.snd with
          | none => .error s!"Variant '{v}' carries no payload but binding '{x}' was given"
          | some payload => .ok (i :: covered, some (x, payload))

def checkExhaustive (what typeName : String) (variants : List (Name × Option Ty))
    (covered : List Nat) (seenDefault : Bool) : Except String Unit :=
  match seenDefault, (List.range variants.length).find? (fun i => !covered.contains i) with
  | false, some i =>
    let v := (variants[i]?.map Prod.fst).getD "?"
    .error (s!"Non-exhaustive {what} on '{typeName}': variant '{v}' not covered; " ++
      s!"add a 'case {v}:' arm or a 'default:' arm")
  | _, _ => .ok ()

def subjectVariants (Γ : Context) (t : Ty) : Except String (List (Name × Option Ty)) :=
  let typeName := t.name
  match t with
  | .taggedEnum e => .ok (Γ.taggedVariants e)
  | _ => .error s!"match expression must be a tagged enum type, got '{typeName}'"

mutual

/-- `type_checker_infer_type`. -/
def inferType (Γ : Context) : Expr → Check Ty
  | .numberLiteral value radix => pure (defaultIntegerLiteralType value radix)
  | .floatLiteral _ => pure .float64
  | .stringLiteral _ => pure .string
  | .identifier x => inferIdentifier Γ x
  | .binaryExpression l op r => do
    let left ← inferType Γ l
    let right ← inferType Γ r
    liftM (checkBinaryExpression l left op r right)
  | .unaryExpression .addressOf e => do
    match functionNamed Γ (← get) e with
    | some (parameters, returnType) => pure (.functionPointer parameters returnType)
    | none =>
      if !isLvalueExpression e then
        throw "Address-of operator requires an assignable expression"
      else
        let t ← inferType Γ e
        resolveType Γ (t.name ++ "*") "Failed to resolve pointer type"
  | .unaryExpression op e => do
    let t ← inferType Γ e
    liftM (checkUnaryExpression op e t)
  | .functionCall f arguments => do
    if f = "sizeof" then inferSizeof Γ arguments
    else if f = "static_assert" then validateStaticAssert Γ arguments
    else
      match Γ.lookup (← get) f with
      | none => throw s!"Undefined function '{f}'"
      | some (symbol, _) =>
        let (parameters, nullAllowed, type) ← liftM (callSignature f symbol arguments.length)
        inferArguments Γ nullAllowed arguments parameters
        pure type
  | .methodCall object f arguments => do
    if f = "sizeof" then inferSizeof Γ arguments
    else if f = "static_assert" then validateStaticAssert Γ arguments
    else
      let receiver ← inferType Γ object
      let receiverName := receiver.name
      match receiverStruct receiver with
      | none =>
        throw (s!"Method call receiver must be a struct or pointer-to-struct, " ++
          s!"got '{receiverName}'")
      | some s =>
        let mangled := s ++ "_" ++ f
        match Γ.lookup (← get) mangled with
        | none => throw s!"Undefined method '{s}.{f}' (expected function '{mangled}')"
        | some (symbol, _) =>
          -- The receiver has become the first argument.
          let (parameters, nullAllowed, type) ←
            liftM (callSignature mangled symbol (arguments.length + 1))
          match parameters with
          | [] => pure type
          | parameter :: rest =>
            liftM (requireAssignable nullAllowed parameter receiver object)
            inferArguments Γ nullAllowed arguments rest
            pure type
  | .funcPtrCall function arguments => do
    let t ← inferType Γ function
    match calleeSignature Γ (← get) function t with
    | none => throw "Cannot call non-function-pointer expression"
    | some (parameters, returnType) =>
      let expected := parameters.length
      let count := arguments.length
      if count ≠ expected then
        throw s!"Function pointer expects {expected} arguments, got {count}"
      else
        inferArguments Γ true arguments parameters
        pure returnType
  | .memberAccess object field => do
    let t ← inferType Γ object
    liftM (fieldType Γ t field)
  | .indexExpression array index => do
    let t ← inferType Γ array
    let indexType ← inferType Γ index
    liftM (checkIndex array t index indexType)
  | .newExpression typeName => do
    match Γ.lookup (← get) typeName with
    | some (.typeSymbol (.struct _), _) =>
      resolveType Γ (typeName ++ "*") "Failed to resolve pointer type"
    | _ => throw s!"Struct type '{typeName}' not found for allocation"
  | .castExpression typeName operand => do
    let target ← resolveType Γ typeName "Unknown target type for cast"
    let t ← inferType Γ operand
    let operandName := t.name
    let targetName := target.name
    if t.isCastValid target then pure target
    else throw s!"Cannot cast from type '{operandName}' to type '{targetName}'"
  | .matchExpression subject arms => do
    let t ← inferType Γ subject
    let variants ← liftM (subjectVariants Γ t)
    let (covered, result, seenDefault) ← inferArms Γ t.name variants arms [] none false
    liftM (checkExhaustive "match expression" t.name variants covered seenDefault)
    match result with
    | none => throw "match expression has no arms to determine a result type"
    | some type => pure type

def inferArguments (Γ : Context) (nullAllowed : Bool) : List Expr → List Ty → Check Unit
  | argument :: arguments, parameter :: parameters => do
    let t ← inferType Γ argument
    liftM (requireAssignable nullAllowed parameter t argument)
    inferArguments Γ nullAllowed arguments parameters
  | _, _ => pure ()

/-- The arm loop of `type_checker_check_match_expression`: the result type is
that of the first arm, the others have to be compatible with it. -/
def inferArms (Γ : Context) (typeName : String) (variants : List (Name × Option Ty)) :
    List (Pattern × Expr) → List Nat → Option Ty → Bool → Check (List Nat × Option Ty × Bool)
  | [], covered, result, seenDefault => pure (covered, result, seenDefault)
  | (pattern, body) :: arms, covered, result, seenDefault => do
    let (covered, binding) ← liftM (checkPattern typeName variants covered pattern)
    let t ← withBinding binding (inferType Γ body)
    let armName := t.name
    match result with
    | none =>
      inferArms Γ typeName variants arms covered (some t) (seenDefault || pattern == .default)
    | some type =>
      let resultName := type.name
      if type.areCompatible t then
        inferArms Γ typeName variants arms covered (some type) (seenDefault || pattern == .default)
      else throw s!"match arms have incompatible types: '{resultName}' vs '{armName}'"

end

-- ---
-- Statements
-- ---

/-- `symbol_table_declare` for a local variable. -/
def declareVariable (x : Name) (t : Ty) : Check Unit := do
  let c ← get
  match c.scopes with
  | [] => throw s!"Duplicate declaration of '{x}'"
  | scope :: _ =>
    if (scope.lookup x).isSome then throw s!"Duplicate declaration of '{x}'"
    else set (c.insert x (.var t false))

def declaredType (Γ : Context) (x : Name) (annotated : Option Ty) : Option Expr → Check Ty
  | some e => do
    let initType ← inferType Γ e
    match annotated with
    | some t => do
      liftM (requireAssignable true t initType e)
      pure t
    | none => pure initType
  | none =>
    match annotated with
    | some t => pure t
    | none => throw s!"Variable '{x}' must have either a type annotation or an initializer"

def resolveAnnotated (Γ : Context) : Option String → Check (Option Ty)
  | some t => do
    let type ← resolveType Γ t s!"Undefined type '{t}'"
    pure (some type)
  | none => pure none

/-- The `AST_VAR_DECLARATION` case of `type_checker_process_declaration`, for a local. -/
def processVarDeclaration (Γ : Context) (x : Name) (typeName : Option String)
    (initializer : Option Expr) : Check Unit := do
  let annotated ← resolveAnnotated Γ typeName
  let t ← declaredType Γ x annotated initializer
  declareVariable x t
  if t.isAggregate then pure ()
  else modify fun c => c.declareTracked x initializer.isSome

/-- The simple case of `AST_ASSIGNMENT`: the name is looked up in the symbol
table, the mark is set by name in the tracker. -/
def processAssignment (Γ : Context) (x : Name) (value : Expr) : Check Unit := do
  match Γ.lookup (← get) x with
  | none => throw s!"Undefined variable '{x}'"
  | some (.var t _, isLocal) =>
    let valueType ← inferType Γ value
    liftM (requireAssignable true t valueType value)
    if isLocal then modify fun c => c.setInitialized x else pure ()
  | some (.function _ _, _) => throw s!"'{x}' is a function and cannot be assigned to"
  | some (.typeSymbol (.struct _), _) => throw s!"'{x}' is a struct and cannot be assigned to"
  | some (_, _) => throw s!"'{x}' is a symbol and cannot be assigned to"

def inferTarget (Γ : Context) : Expr → Check Ty
  | .memberAccess object field => do
    let t ← inferType Γ object
    let typeName := t.name
    match t with
    | .struct _ => liftM (fieldType Γ t field)
    | .string => liftM (fieldType Γ t field)
    | _ => throw s!"Cannot assign field '{field}' on non-struct/string type '{typeName}'"
  | .indexExpression array index => inferType Γ (.indexExpression array index)
  | .unaryExpression .deref e => inferType Γ (.unaryExpression .deref e)
  | _ => throw "Invalid assignment target"

/-- The target forms of `AST_ASSIGNMENT`. -/
def processTargetAssignment (Γ : Context) (target value : Expr) : Check Unit := do
  let t ← inferTarget Γ target
  let valueType ← inferType Γ value
  liftM (requireAssignable true t valueType value)

def checkExpressionStatement (Γ : Context) (e : Expr) : Check Unit := do
  match e with
  | .functionCall _ _ | .methodCall _ _ _ | .matchExpression _ _ =>
    let _ ← inferType Γ e
    pure ()
  | _ => throw "Unknown statement type"

def checkForInitializer (Γ : Context) : Option Stmt → Check Unit
  | none => pure ()
  | some (.varDeclaration x t e) => processVarDeclaration Γ x t e
  | some (.assignment x e) => processAssignment Γ x e
  | some (.targetAssignment target e) => processTargetAssignment Γ target e
  | some (.expression e) => do
    let _ ← inferType Γ e
    pure ()
  | some _ => throw "Invalid for statement"

/-- The increment of a for header goes through `type_checker_check_expression`,
where the type of an assignment is that of its value: the target is not looked
at. -/
def checkForIncrement (Γ : Context) : Option Stmt → Check Unit
  | none => pure ()
  | some (.assignment _ e) => do
    let _ ← inferType Γ e
    pure ()
  | some (.targetAssignment _ e) => do
    let _ ← inferType Γ e
    pure ()
  | some (.expression e) => do
    let _ ← inferType Γ e
    pure ()
  | some _ => throw "Invalid for statement"

def checkCondition (Γ : Context) (e : Expr) : Check Unit := do
  let t ← inferType Γ e
  if t.isNumericType then pure () else throw (typeMismatch "numeric type" t.name)

def checkForCondition (Γ : Context) : Option Expr → Check Unit
  | none => pure ()
  | some e => checkCondition Γ e

def Context.caseConstant (Γ : Context) (c : Checker) (e : Expr) : Option Int :=
  match evalIntegerConstant e, e with
  | some v, _ => some v
  | none, .identifier x => Γ.constantValue c x
  | none, _ => none

def checkCaseValue (Γ : Context) (switchType : Ty) (values : List Int) (e : Expr) :
    Check (List Int) := do
  let t ← inferType Γ e
  if !t.isIntegerType then throw (typeMismatch "integer type" t.name)
  else if !switchType.isAssignable t then throw (typeMismatch switchType.name t.name)
  else
    match Γ.caseConstant (← get) e with
    | none => throw "Case value must be a compile-time integer constant expression"
    | some v =>
      if v ∈ values then throw s!"Duplicate case value '{v}' in switch"
      else pure (v :: values)

/-- The exhaustiveness rules of a switch over an enum or over `bool`. -/
def checkSwitchExhaustive (Γ : Context) (switchType : Ty) (values : List Int)
    (seenDefault : Bool) : Except String Unit :=
  let typeName := switchType.name
  match seenDefault, switchType with
  | false, .enum e =>
    match Γ.globals.find? fun s =>
        match s.2 with
        | .constant (.enum e') v => e' == e && !values.contains v
        | _ => false with
    | some (v, _) =>
      .error (s!"Non-exhaustive switch on '{typeName}': variant '{v}' not covered; " ++
        s!"add a 'case {v}:' arm or a 'default:' arm")
    | none => .ok ()
  | false, .bool =>
    if values.contains 1 && values.contains 0 then .ok ()
    else .error ("Non-exhaustive switch over 'bool': must cover both 'true' and " ++
      "'false', or add a 'default:' arm")
  | _, _ => .ok ()

def isDeferrable : Stmt → Bool
  | .expression (.functionCall _ _) => true
  | .expression (.methodCall _ _ _) => true
  | .assignment _ _ => true
  | .targetAssignment _ _ => true
  | .block _ => true
  | _ => false

mutual

/-- `type_checker_check_statement`, inside a function. -/
def checkStatement (Γ : Context) : Stmt → Check Unit
  | .varDeclaration x t e => processVarDeclaration Γ x t e
  | .assignment x e => processAssignment Γ x e
  | .targetAssignment target e => processTargetAssignment Γ target e
  | .expression e => checkExpressionStatement Γ e
  | .returnStatement none => pure ()
  | .returnStatement (some e) => do
    let t ← inferType Γ e
    liftM (requireAssignable true Γ.returnType t e)
  | .ifStatement condition thenBranch elseIfs elseBranch => do
    checkCondition Γ condition
    let snapshot := capture (← get).tracked
    checkStatement Γ thenBranch
    restoreSnapshot snapshot
    checkElseIfs Γ snapshot elseIfs
    checkElse Γ elseBranch
    restoreSnapshot snapshot
  | .whileStatement _ condition body => do
    checkCondition Γ condition
    let snapshot := capture (← get).tracked
    modify Checker.enterLoop
    checkStatement Γ body
    modify Checker.exitLoop
    restoreSnapshot snapshot
  | .forStatement _ initializer condition increment body => do
    modify Checker.enterScope
    checkForInitializer Γ initializer
    let snapshot := capture (← get).tracked
    checkForCondition Γ condition
    checkForIncrement Γ increment
    modify Checker.enterLoop
    checkStatement Γ body
    modify Checker.exitLoop
    restoreSnapshot snapshot
    modify Checker.exitScope
  | .switchStatement e cases => do
    let t ← inferType Γ e
    if !t.isIntegerType then throw (typeMismatch "integer type" t.name)
    else
      let snapshot := capture (← get).tracked
      modify Checker.enterSwitch
      let (values, seenDefault) ← checkCases Γ t snapshot cases [] false
      modify Checker.exitSwitch
      restoreSnapshot snapshot
      liftM (checkSwitchExhaustive Γ t values seenDefault)
  | .matchStatement e arms => do
    let t ← inferType Γ e
    let variants ← liftM (subjectVariants Γ t)
    let (covered, seenDefault) ← checkArms Γ t.name variants arms [] false
    liftM (checkExhaustive "match" t.name variants covered seenDefault)
  | .breakStatement _ => do
    let c ← get
    if c.loopDepth = 0 ∧ c.switchDepth = 0 then
      throw "'break' can only be used inside a loop or switch"
    else pure ()
  | .continueStatement _ => do
    if (← get).loopDepth = 0 then throw "'continue' can only be used inside a loop"
    else pure ()
  | .deferStatement s =>
    if isDeferrable s then checkStatement Γ s
    else throw "Deferred statement must be a function call, assignment, or block"
  | .errdeferStatement s =>
    if isDeferrable s then checkStatement Γ s
    else throw "Errdeferred statement must be a function call, assignment, or block"
  | .inlineAsm _ => pure ()
  | .block statements => do
    modify Checker.enterScope
    checkStatements Γ statements
    modify Checker.exitScope

def checkStatements (Γ : Context) : List Stmt → Check Unit
  | [] => pure ()
  | s :: rest => do
    checkStatement Γ s
    checkStatements Γ rest

def checkElseIfs (Γ : Context) (snapshot : List Bool) : List (Expr × Stmt) → Check Unit
  | [] => pure ()
  | (condition, body) :: rest => do
    checkCondition Γ condition
    checkStatement Γ body
    restoreSnapshot snapshot
    checkElseIfs Γ snapshot rest

def checkElse (Γ : Context) : Option Stmt → Check Unit
  | none => pure ()
  | some s => checkStatement Γ s

/-- The case loop of `type_checker_check_switch_statement`. -/
def checkCases (Γ : Context) (switchType : Ty) (snapshot : List Bool) :
    List (Option Expr × List Stmt) → List Int → Bool → Check (List Int × Bool)
  | [], values, seenDefault => pure (values, seenDefault)
  | (none, body) :: cases, values, seenDefault => do
    if seenDefault then throw "Switch may only contain one default clause"
    else
      modify Checker.enterScope
      checkStatements Γ body
      modify Checker.exitScope
      restoreSnapshot snapshot
      checkCases Γ switchType snapshot cases values true
  | (some e, body) :: cases, values, seenDefault => do
    let values ← checkCaseValue Γ switchType values e
    modify Checker.enterScope
    checkStatements Γ body
    modify Checker.exitScope
    restoreSnapshot snapshot
    checkCases Γ switchType snapshot cases values seenDefault

/-- The arm loop of `type_checker_check_match_statement`: no snapshot is taken,
so each arm starts from the marks of the ones before it. -/
def checkArms (Γ : Context) (typeName : String) (variants : List (Name × Option Ty)) :
    List (Pattern × List Stmt) → List Nat → Bool → Check (List Nat × Bool)
  | [], covered, seenDefault => pure (covered, seenDefault)
  | (pattern, body) :: arms, covered, seenDefault => do
    let (covered, binding) ← liftM (checkPattern typeName variants covered pattern)
    withBinding binding do
      modify Checker.enterScope
      checkStatements Γ body
      modify Checker.exitScope
    checkArms Γ typeName variants arms covered (seenDefault || pattern == .default)

end

-- ---
-- Functions
-- ---

def functionEntry (parameters : List (Name × Ty)) : Checker where
  scopes := [(parameters.map fun p => (p.1, Symbol.var p.2 false)).reverse]
  tracked := (parameters.map fun p => ⟨p.1, true⟩).reverse
  markers := [0]
  loopDepth := 0
  switchDepth := 0

/-- The body part of the `AST_FUNCTION_DECLARATION` case of
`type_checker_process_declaration`: accepted or not. -/
def checkFunctionBody (Γ : Context) (parameters : List (Name × Ty)) (body : Stmt) :
    Except String Checker :=
  if (parameters.map Prod.fst).Nodup then
    (checkStatement Γ body (functionEntry parameters)).map Prod.snd
  else .error "Duplicate declaration of a parameter"

end Mettle.Semantic
