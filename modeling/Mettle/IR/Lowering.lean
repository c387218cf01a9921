import Mettle.IR.Syntax
import Mettle.Semantic.TypeChecker

/-!
# Mettle — lowering expressions to IR

`ir_lower_expression` and what it calls, over the shared syntax of function
bodies. Lowering appends instructions to the function and numbers its temps and
labels as it goes; locals it needs for itself (the result of a match, the value
a constructor builds) get a label name too.

What lowering looks up is a parameter: the types that the checker left in the
nodes, the global symbols, and the layouts. A node's type is asked for by the
number of the question, so that two occurrences of one expression may have
different types. Source locations and out-of-memory errors are left out.
-/

namespace Mettle.IR

open Mettle.Parser
open Mettle.Semantic (Ty Symbol receiverStruct)

-- ---
-- State
-- ---

/-- What lowering looks up. -/
structure Lookups where
  typeOf : Nat → Expr → Option Ty
  namedType : String → Option Ty
  symbolNamed : Name → Option Symbol
  constructorTag : Name → Int
  isIndirectCall : Nat → Bool
  size : Ty → Nat
  fieldOf : Ty → Name → Option (Ty × Nat)
  variantsOf : Name → List (Name × Option Ty × Int)
  dataOffset : Name → Nat
  emitRuntimeChecks : Bool
  single : BitVec 64 → BitVec 64

/-- The part of `IRLoweringContext` that changes, the questions asked so far, and
the function. -/
structure Lowering where
  nextTempId : Nat
  nextLabelId : Nat
  questions : Nat
  code : List IRInstruction

abbrev Lower := StateT Lowering (Except String)

/-- `ir_emit`. -/
def emit (instruction : IRInstruction) : Lower Unit :=
  modify fun s => { s with code := s.code ++ [instruction] }

/-- The name of a temp. -/
def tempName (id : Nat) : String := "t" ++ toString id

/-- The name `ir_new_label_name` makes. -/
def labelName (stem : String) (id : Nat) : String := "ir_" ++ stem ++ "_" ++ toString id

/-- `ir_make_temp_operand`. -/
def makeTempOperand : Lower IROperand := do
  let s ← get
  set { s with nextTempId := s.nextTempId + 1 }
  pure (.temp (tempName s.nextTempId))

/-- `ir_new_label_name`. -/
def newLabelName (stem : String) : Lower String := do
  let s ← get
  set { s with nextLabelId := s.nextLabelId + 1 }
  pure (labelName stem s.nextLabelId)

def nextQuestion : Lower Nat := do
  let s ← get
  set { s with questions := s.questions + 1 }
  pure s.questions

/-- `ir_infer_expression_type`. -/
def inferExpressionType (info : Lookups) (e : Expr) : Lower (Option Ty) := do
  let question ← nextQuestion
  pure (info.typeOf question e)

/-- `ir_emit_jump_instruction`. -/
def emitJump (label : String) : Lower Unit := emit { op := .jump, text := some label }

/-- `ir_emit_label_instruction`. -/
def emitLabel (label : String) : Lower Unit := emit { op := .label, text := some label }

def emitBranchZero (value : IROperand) (label : String) : Lower Unit :=
  emit { op := .branchZero, lhs := value, text := some label }

-- ---
-- Types
-- ---

/-- `ir_type_storage_size`. -/
def typeStorageSize (info : Lookups) (t : Option Ty) : Int :=
  match t.map info.size with
  | some 1 => 1
  | some 2 => 2
  | some 4 => 4
  | _ => 8

/-- `ir_type_array_element_stride`. -/
def arrayElementStride (info : Lookups) (t : Ty) : Int :=
  if info.size t = 0 ∨ 2 ^ 31 ≤ info.size t then 8 else info.size t

def payloadSize (info : Lookups) (t : Ty) : Int :=
  if info.size t = 0 then typeStorageSize info (some t) else info.size t

/-- The width of a float, 0 for any other type. -/
def typeFloatBits : Option Ty → Nat
  | some .float32 => 32
  | some .float64 => 64
  | _ => 0

def isRecord : Ty → Bool
  | .struct _ => true
  | .string => true
  | _ => false

/-- `kind == TYPE_STRING`. -/
def typeIsString : Option Ty → Bool
  | some .string => true
  | _ => false

/-- `kind`, by its number. -/
def typeKind : Ty → Nat
  | .int8 => 0
  | .int16 => 1
  | .int32 => 2
  | .int64 => 3
  | .uint8 => 4
  | .uint16 => 5
  | .uint32 => 6
  | .uint64 => 7
  | .bool => 8
  | .float32 => 9
  | .float64 => 10
  | .string => 11
  | .functionPointer _ _ => 12
  | .pointer _ _ => 13
  | .array _ _ _ => 14
  | .struct _ => 15
  | .enum _ => 16
  | .taggedEnum _ => 17
  | .void => 18

/-- `ir_type_is_cstring`. -/
def typeIsCstring : Option Ty → Bool
  | some t => t.isCstringType
  | none => false

/-- `ir_operand_apply_float_bits`. -/
def applyFloatBits (info : Lookups) (bits : Nat) : IROperand → IROperand
  | .float v b =>
    if bits = 32 then .float (info.single v) 32
    else if bits = 64 then .float v 64
    else .float v b
  | operand => operand

-- ---
-- Pieces of code
-- ---

/-- `ir_emit_local_declaration`. -/
def emitLocalDeclaration (name typeName : String) : Lower Unit :=
  emit { op := .declareLocal, dest := .symbol name, text := some typeName }

/-- `ir_emit_address_of_symbol`. -/
def emitAddressOfSymbol (name : String) : Lower IROperand := do
  let destination ← makeTempOperand
  emit { op := .addressOf, dest := destination, lhs := .symbol name }
  pure destination

/-- An operator into a new temp. -/
def emitBinary (op : String) (lhs rhs : IROperand) : Lower IROperand := do
  let destination ← makeTempOperand
  emit { op := .binary, dest := destination, lhs := lhs, rhs := rhs, text := some op }
  pure destination

def emitLoad (address : IROperand) (size : Int) (t : Option Ty) : Lower IROperand := do
  let destination ← makeTempOperand
  emit { op := .load, dest := destination, lhs := address, rhs := .int size,
         isFloat := typeFloatBits t != 0, floatBits := typeFloatBits t }
  pure destination

/-- `ir_coerce_string_operand_to_cstring`: the characters of a string record. -/
def coerceToCstring (value : IROperand) : Lower IROperand := emitLoad value 8 none

/-- `ir_try_emit_aggregate_symbol_memcpy`, where it applies: a struct of more
than eight bytes is copied from one variable to another. -/
def aggregateSize (info : Lookups) (value : IROperand) (t : Option Ty) : Option (String × Nat) :=
  match value, t with
  | .symbol source, some (.struct s) =>
    if 8 < info.size (.struct s) ∧ info.size (.struct s) < 2 ^ 31 then
      some (source, info.size (.struct s))
    else none
  | _, _ => none

/-- A copy of all bytes of a symbol. -/
def emitAggregateCopy (name source : String) (size : Nat) : Lower Unit := do
  let destAddress ← emitAddressOfSymbol name
  let sourceAddress ← emitAddressOfSymbol source
  emit { op := .store, dest := destAddress, lhs := sourceAddress, rhs := .int size }

/-- `ir_emit_symbol_assignment`. -/
def emitSymbolAssignment (info : Lookups) (name : String) (value : IROperand) : Lower Unit :=
  match aggregateSize info value ((info.symbolNamed name).map Symbol.type) with
  | some (source, size) => emitAggregateCopy name source size
  | none => emit { op := .assign, dest := .symbol name, lhs := value }

/-- `ir_emit_address_with_offset`. -/
def emitAddressWithOffset (base : IROperand) (offset : Nat) : Lower IROperand :=
  if offset = 0 then pure base else emitBinary "+" base (.int offset)

/-- `ir_emit_runtime_trap_ex`. -/
def emitRuntimeTrap (kind : Int) (message : String) (arg0 arg1 : IROperand) : Lower Unit :=
  emit { op := .call, text := some "mettle_crash_trap_ex",
         arguments := [.int kind, .string message, arg0, arg1] }

def emitTrapUnless (value : IROperand) (trapStem okStem : String) (kind : Int) (message : String)
    (arg0 arg1 : IROperand) : Lower Unit := do
  let trapLabel ← newLabelName trapStem
  let okLabel ← newLabelName okStem
  emitBranchZero value trapLabel
  emitJump okLabel
  emitLabel trapLabel
  emitRuntimeTrap kind message arg0 arg1
  emitLabel okLabel

/-- `ir_emit_null_check`. -/
def emitNullCheck (info : Lookups) (value : IROperand) : Lower Unit :=
  if info.emitRuntimeChecks then
    emitTrapUnless value "trap_null" "nonnull" 1 "Fatal error: Null pointer dereference" (.int 0)
      (.int 0)
  else pure ()

/-- `ir_emit_bounds_check`. -/
def emitBoundsCheck (info : Lookups) (index : IROperand) (size : Nat) : Lower Unit :=
  if info.emitRuntimeChecks then do
    let inBounds ← emitBinary "<" index (.int size)
    emitTrapUnless inBounds "trap_bounds" "in_bounds" 2 "Fatal error: Array index out of bounds"
      index (.int size)
  else pure ()

/-- `ir_emit_scaled_index_offset`. -/
def emitScaledIndexOffset (index : IROperand) (stride : Int) : Lower IROperand :=
  if stride = 1 then pure index else emitBinary "*" index (.int stride)

def matchSubject (info : Lookups) (value : IROperand) (typeName : String) : Lower String :=
  match value with
  | .symbol name => pure name
  | value => do
    let name ← newLabelName "match_subject"
    emitLocalDeclaration name typeName
    emitSymbolAssignment info name value
    pure name

def newArmLabels : List Pattern → Lower (List String)
  | [] => pure []
  | _ :: arms => do
    let label ← newLabelName "match_arm"
    let rest ← newArmLabels arms
    pure (label :: rest)

def defaultLabel (endLabel : String) (arms : List (Pattern × String)) : String :=
  ((arms.filter fun arm => arm.1 == .default).getLast?.map Prod.snd).getD endLabel

def emitDispatch (variants : List (Name × Option Ty × Int)) (tag : IROperand) :
    List (Pattern × String) → Lower Unit
  | [] => pure ()
  | (.default, _) :: arms => emitDispatch variants tag arms
  | (.variant v _, label) :: arms =>
    match variants.find? fun w => w.1 == v with
    | none => throw s!"Unknown tagged-enum variant '{v}' in match"
    | some (_, _, value) => do
      emit { op := .branchEq, lhs := tag, rhs := .int value, text := some label }
      emitDispatch variants tag arms

def emitBinding (info : Lookups) (enumName : Name) (variants : List (Name × Option Ty × Int))
    (subjectAddress : IROperand) : Pattern → Lower Unit
  | .variant v (some x) =>
    match (variants.find? fun w => w.1 == v).bind fun w => w.2.1 with
    | none => throw s!"Match binding '{x}' has no payload to bind"
    | some payload => do
      emitLocalDeclaration x payload.name
      let payloadAddress ← emitAddressWithOffset subjectAddress (info.dataOffset enumName)
      if 8 < payloadSize info payload then
        let bindingAddress ← emitAddressOfSymbol x
        emit { op := .store, dest := bindingAddress, lhs := payloadAddress,
               rhs := .int (payloadSize info payload) }
      else
        let value ← emitLoad payloadAddress (payloadSize info payload) none
        emitSymbolAssignment info x value
  | _ => pure ()

def binaryText : BinaryOp → String
  | .add => "+"
  | .sub => "-"
  | .mul => "*"
  | .div => "/"
  | .mod => "%"
  | .bitAnd => "&"
  | .bitOr => "|"
  | .bitXor => "^"
  | .shl => "<<"
  | .shr => ">>"
  | .eq => "=="
  | .ne => "!="
  | .lt => "<"
  | .le => "<="
  | .gt => ">"
  | .ge => ">="
  | .logicalAnd => "&&"
  | .logicalOr => "||"

def unaryText : UnaryOp → String
  | .plus => "+"
  | .minus => "-"
  | .bitNot => "~"
  | .logicalNot => "!"
  | .addressOf => "&"
  | .deref => "*"

/-- `ir_binary_operator_is_comparison`. -/
def isComparison : BinaryOp → Bool
  | .eq | .ne | .lt | .le | .gt | .ge => true
  | _ => false

/-- `ir_binary_expression_operation_float_bits`. -/
def operationFloatBits (info : Lookups) (l : Expr) (op : BinaryOp) (r : Expr) : Lower Nat := do
  let bits := typeFloatBits (← inferExpressionType info (.binaryExpression l op r))
  if bits ≠ 0 then pure bits
  else if !isComparison op then pure 0
  else
    let left := typeFloatBits (← inferExpressionType info l)
    let right := typeFloatBits (← inferExpressionType info r)
    pure (max left right)

-- ---
-- Addresses
-- ---

def identifierAddress (info : Lookups) (wantType : Bool) (x : Name) :
    Lower (IROperand × Option Ty) :=
  if wantType then
    match info.symbolNamed x with
    | some (.constant _ _) => throw "Cannot take address of constant"
    | some (.var t _) => do
      let address ← emitAddressOfSymbol x
      pure (address, some t)
    | _ => do
      let t ← inferExpressionType info (.identifier x)
      let address ← emitAddressOfSymbol x
      pure (address, t)
  else do
    let address ← emitAddressOfSymbol x
    pure (address, none)

def memberObject (info : Lookups) (object : Expr) (value : Lower IROperand)
    (address : Lower (IROperand × Option Ty)) : Lower (IROperand × Option Ty) := do
  match ← inferExpressionType info object with
  | some (.pointer _ base) => do
    let pointer ← value
    emitNullCheck info pointer
    pure (pointer, some base)
  | some .string => do
    let record ← value
    pure (record, some .string)
  | _ => address

def memberAddress (info : Lookups) (object : Expr) (member : Name) (value : Lower IROperand)
    (address : Lower (IROperand × Option Ty)) : Lower (IROperand × Option Ty) := do
  let (objectAddress, objectType) ← memberObject info object value address
  match objectType.filter isRecord with
  | none => throw "Member access requires struct or string lvalue object"
  | some t =>
    match info.fieldOf t member with
    | none => throw s!"Unknown struct field '{member}'"
    | some (fieldType, fieldOffset) => do
      let fieldAddress ← emitBinary "+" objectAddress (.int fieldOffset)
      pure (fieldAddress, some fieldType)

def indexAddress (info : Lookups) (array : Expr) (value : Lower IROperand)
    (address : Lower (IROperand × Option Ty)) (indexValue : Lower IROperand) :
    Lower (IROperand × Option Ty) := do
  match ← inferExpressionType info array with
  | some (.array _ element size) => do
    let (base, _) ← address
    let index ← indexValue
    emitBoundsCheck info index size
    let scaled ← emitBinary "*" index (.int (arrayElementStride info element))
    let elementAddress ← emitBinary "+" base scaled
    pure (elementAddress, some element)
  | some (.pointer _ element) => do
    let base ← value
    let index ← indexValue
    emitNullCheck info base
    let scaled ← emitBinary "*" index (.int (arrayElementStride info element))
    let elementAddress ← emitBinary "+" base scaled
    pure (elementAddress, some element)
  | _ => throw "Index lvalue requires array or pointer type"

def derefAddress (info : Lookups) (operand : Expr) (value : Lower IROperand) :
    Lower (IROperand × Option Ty) := do
  match ← inferExpressionType info operand with
  | none => do
    let pointer ← value
    emitNullCheck info pointer
    pure (pointer, none)
  | some (.pointer _ base) => do
    let pointer ← value
    emitNullCheck info pointer
    pure (pointer, some base)
  | some _ => throw "Dereference lvalue requires pointer operand"

def loadFrom (info : Lookups) (message : String) (address : Lower (IROperand × Option Ty)) :
    Lower IROperand := do
  let (place, t) ← address
  match t with
  | none => throw message
  | some t => emitLoad place (typeStorageSize info (some t)) (some t)

-- ---
-- Operators
-- ---

def concatenate (left right : Lower IROperand) : Lower IROperand := do
  let destination ← makeTempOperand
  let l ← left
  let r ← right
  emit { op := .binary, dest := destination, lhs := l, rhs := r, text := some "+",
         astRef := true }
  pure destination

/-- In `||` a left operand that is not zero decides. -/
def emitDecided (isAnd : Bool) (trueLabel : String) : Lower Unit :=
  if isAnd then pure () else emitJump trueLabel

/-- `&&` and `||`: the right operand is evaluated only if the left one leaves the
result open. -/
def shortCircuit (isAnd : Bool) (left right : Lower IROperand) : Lower IROperand := do
  let destination ← makeTempOperand
  let l ← left
  let rhsLabel ← newLabelName "sc_rhs"
  let trueLabel ← newLabelName "sc_true"
  let falseLabel ← newLabelName "sc_false"
  let endLabel ← newLabelName "sc_end"
  emitBranchZero l (if isAnd then falseLabel else rhsLabel)
  emitDecided isAnd trueLabel
  emitLabel rhsLabel
  let r ← right
  emitBranchZero r falseLabel
  emitLabel trueLabel
  emit { op := .assign, dest := destination, lhs := .int 1 }
  emitJump endLabel
  emitLabel falseLabel
  emit { op := .assign, dest := destination, lhs := .int 0 }
  emitLabel endLabel
  pure destination

/-- What `ir_try_lower_pointer_arithmetic` finds: a pointer moved by an index (with
the pointer on the left or on the right), or the distance of two pointers. -/
inductive PointerArithmetic
  | moved (op : String) (pointerOnLeft : Bool) (stride : Int)
  | distance (stride : Int)

/-- The tests of `ir_try_lower_pointer_arithmetic`. -/
def pointerArithmetic (info : Lookups) (op : BinaryOp) :
    Option Ty → Option Ty → Option PointerArithmetic
  | some left, some right =>
    match op, left, right with
    | .add, .pointer _ base, right =>
      if right.isIntegerType then some (.moved "+" true (arrayElementStride info base)) else none
    | .add, left, .pointer _ base =>
      if left.isIntegerType then some (.moved "+" false (arrayElementStride info base)) else none
    | .sub, .pointer _ base, .pointer _ base' =>
      if info.size base = info.size base' ∧ typeKind base = typeKind base' then
        some (.distance (arrayElementStride info base))
      else none
    | .sub, .pointer _ base, right =>
      if right.isIntegerType then some (.moved "-" true (arrayElementStride info base)) else none
    | _, _, _ => none
  | _, _ => none

def movePointer (op : String) (stride : Int) (pointer index : Lower IROperand) :
    Lower IROperand := do
  let base ← pointer
  let i ← index
  let offset ← emitScaledIndexOffset i stride
  emitBinary op base offset

def pointerDistance (stride : Int) (left right : Lower IROperand) : Lower IROperand := do
  let l ← left
  let r ← right
  let byteDiff ← emitBinary "-" l r
  if stride = 1 then pure byteDiff else emitBinary "/" byteDiff (.int stride)

def plainBinary (info : Lookups) (l : Expr) (op : BinaryOp) (r : Expr)
    (left right : Lower IROperand) : Lower IROperand := do
  let lhs ← left
  let rhs ← right
  let destination ← makeTempOperand
  let bits ← operationFloatBits info l op r
  emit { op := .binary, dest := destination, lhs := lhs, rhs := rhs,
         text := some (binaryText op), isFloat := bits != 0, floatBits := bits }
  pure destination

def strictBinary (info : Lookups) (l : Expr) (op : BinaryOp) (r : Expr)
    (left right : Lower IROperand) : Lower IROperand := do
  let leftType ← inferExpressionType info l
  let rightType ← inferExpressionType info r
  match pointerArithmetic info op leftType rightType with
  | some (.moved op true stride) => movePointer op stride left right
  | some (.moved op false stride) => movePointer op stride right left
  | some (.distance stride) => pointerDistance stride left right
  | none => plainBinary info l op r left right

/-- `+`, which may be the concatenation of strings. -/
def lowerAddition (info : Lookups) (l r : Expr) (left right : Lower IROperand) :
    Lower IROperand := do
  match ← inferExpressionType info (.binaryExpression l .add r) with
  | some .string => concatenate left right
  | _ => strictBinary info l .add r left right

def plainUnary (info : Lookups) (op : UnaryOp) (e : Expr) (value : Lower IROperand) :
    Lower IROperand := do
  let operand ← value
  let destination ← makeTempOperand
  let bits := typeFloatBits (← inferExpressionType info (.unaryExpression op e))
  emit { op := .unary, dest := destination, lhs := operand, text := some (unaryText op),
         isFloat := bits != 0, floatBits := bits }
  pure destination

def lowerCast (info : Lookups) (typeName : String) (e : Expr) (value : Lower IROperand) :
    Lower IROperand := do
  let operand ← value
  let destination ← makeTempOperand
  let bits := typeFloatBits (← inferExpressionType info e)
  emit { op := .cast, dest := destination, lhs := operand, text := some typeName,
         isFloat := bits != 0, floatBits := bits }
  pure destination

/-- The size that `new` allocates. -/
def allocationSize (info : Lookups) (allocated : Option Ty) : Int :=
  match allocated.map info.size with
  | some n => if 0 < n ∧ n < 2 ^ 31 then n else 8
  | none => 8

/-- `new`: the type comes from the expression, or else from the name. -/
def lowerNew (info : Lookups) (typeName : String) : Lower IROperand := do
  let allocated :=
    match ← inferExpressionType info (.newExpression typeName) with
    | some (.pointer _ base) => some base
    | _ => info.namedType typeName
  let destination ← makeTempOperand
  emit { op := .new, dest := destination, rhs := .int (allocationSize info allocated),
         text := some typeName }
  pure destination

-- ---
-- Calls
-- ---

def declaredParameters : Option Symbol → List Ty
  | some (.function parameters _) => parameters
  | _ => []

def pointerParameters : Option Ty → List Ty
  | some (.functionPointer parameters _) => parameters
  | _ => []

/-- A string is passed to a `cstring` parameter by its characters. -/
def shouldCoerceToCstring (info : Lookups) (parameter : Ty) (question : Nat) (e : Expr) : Bool :=
  typeIsCstring (some parameter) && typeIsString (info.typeOf question e)

def convertArgument (info : Lookups) (isDirect : Bool) (parameter : Ty) (question : Nat) (e : Expr)
    (operand : IROperand) : Lower IROperand :=
  if shouldCoerceToCstring info parameter question e then coerceToCstring operand
  else if isDirect then pure (applyFloatBits info (typeFloatBits (some parameter)) operand)
  else pure operand

def convertArguments (info : Lookups) (isDirect : Bool) :
    List Ty → List Expr → List IROperand → Lower (List IROperand)
  | parameter :: parameters, e :: arguments, operand :: operands => do
    let question ← nextQuestion
    let converted ← convertArgument info isDirect parameter question e operand
    let rest ← convertArguments info isDirect parameters arguments operands
    pure (converted :: rest)
  | _, _, operands => pure operands

def callInstruction (isIndirect : Bool) (f : Name) (destination : IROperand)
    (arguments : List IROperand) : IRInstruction :=
  if isIndirect then
    { op := .callIndirect, dest := destination, lhs := .symbol f, arguments := arguments }
  else { op := .call, dest := destination, text := some f, arguments := arguments }

def lowerNamedCall (info : Lookups) (f : Name) (arguments : List Expr)
    (lowered : Lower (List IROperand)) : Lower IROperand := do
  let question ← nextQuestion
  let destination ← makeTempOperand
  let operands ← lowered
  let converted ←
    convertArguments info true (declaredParameters (info.symbolNamed f)) arguments operands
  emit (callInstruction (info.isIndirectCall question) f destination converted)
  pure destination

def lowerPointerCall (info : Lookups) (function : Expr) (arguments : List Expr)
    (callee : Lower IROperand) (lowered : Lower (List IROperand)) : Lower IROperand := do
  let destination ← makeTempOperand
  let pointer ← callee
  let operands ← lowered
  let parameters := pointerParameters (← inferExpressionType info function)
  let converted ← convertArguments info false parameters arguments operands
  emit { op := .callIndirect, dest := destination, lhs := pointer, arguments := converted }
  pure destination

def payloadSource (info : Lookups) (payload : Ty) (value : IROperand) : Lower IROperand :=
  if 8 < payloadSize info payload then do
    let name ← newLabelName "tagged_payload"
    emitLocalDeclaration name payload.name
    emitSymbolAssignment info name value
    emitAddressOfSymbol name
  else pure value

def emitPayload (info : Lookups) (enumType : Ty) (enumAddress : IROperand)
    (arguments : List Expr) (lowered : Lower (List IROperand)) : Option Ty → Lower Unit
  | none => pure ()
  | some payload =>
    if arguments.length = 1 then do
      let operands ← lowered
      let payloadAddress ← emitAddressWithOffset enumAddress (info.dataOffset enumType.name)
      let source ← payloadSource info payload (operands.headD .none)
      emit { op := .store, dest := payloadAddress, lhs := source,
             rhs := .int (payloadSize info payload) }
    else throw ""

/-- `ir_lower_tagged_enum_constructor_call`. -/
def lowerConstructor (info : Lookups) (f : Name) (enumType : Ty) (payload : Option Ty)
    (arguments : List Expr) (lowered : Lower (List IROperand)) : Lower IROperand := do
  let name ← newLabelName "tagged_ctor"
  emitLocalDeclaration name enumType.name
  let enumAddress ← emitAddressOfSymbol name
  emit { op := .store, dest := enumAddress, lhs := .int (info.constructorTag f), rhs := .int 4 }
  emitPayload info enumType enumAddress arguments lowered payload
  pure (.symbol name)

/-- `sizeof`. -/
def lowerSizeof (info : Lookups) : List Expr → Lower IROperand
  | [.identifier typeName] =>
    match (info.namedType typeName).filter fun t => info.size t < 2 ^ 63 with
    | none => throw "Unable to lower sizeof expression"
    | some t => pure (.int (info.size t))
  | _ => throw "Malformed sizeof expression"

/-- `ir_lower_call_expression`. -/
def lowerCall (info : Lookups) (f : Name) (arguments : List Expr)
    (lowered : Lower (List IROperand)) : Lower IROperand :=
  if f = "sizeof" then lowerSizeof info arguments
  else if f = "static_assert" then pure .none
  else
    match info.symbolNamed f with
    | some (.constructor enumType payload) =>
      lowerConstructor info f enumType payload arguments lowered
    | _ => lowerNamedCall info f arguments lowered

def methodFunction (receiver : Option Ty) (f : Name) : Lower Name :=
  match receiver.bind receiverStruct with
  | some s => pure (s ++ "_" ++ f)
  | none => throw s!"Undefined method '{f}'"

-- ---
-- Match expressions
-- ---

/-- `ir_lower_match_expression`, around the code of the arms. -/
def lowerMatch (info : Lookups) (subject whole : Expr) (patterns : List Pattern)
    (value : Lower IROperand)
    (lowerArms : (Pattern → Lower Unit) → String → String → List String → Lower Unit) :
    Lower IROperand := do
  match ← inferExpressionType info subject with
  | some (.taggedEnum enumName) => do
    match ← inferExpressionType info whole with
    | none => throw "Could not determine match expression result type"
    | some resultType => do
      let subjectValue ← value
      let result ← newLabelName "match_result"
      emitLocalDeclaration result resultType.name
      let subjectName ← matchSubject info subjectValue enumName
      let subjectAddress ← emitAddressOfSymbol subjectName
      let tag ← emitLoad subjectAddress 4 none
      let endLabel ← newLabelName "match_end"
      let labels ← newArmLabels patterns
      let variants := info.variantsOf enumName
      emitDispatch variants tag (patterns.zip labels)
      emitJump (defaultLabel endLabel (patterns.zip labels))
      lowerArms (emitBinding info enumName variants subjectAddress) result endLabel labels
      emitLabel endLabel
      pure (.symbol result)
  | _ => throw "IR match lowering requires a tagged-enum subject"

-- ---
-- Expressions
-- ---

mutual

/-- `ir_lower_expression`. -/
def lowerExpression (info : Lookups) : Expr → Lower IROperand
  | .numberLiteral value _ => pure (.int value)
  | .floatLiteral bits => pure (.float (BitVec.ofNat 64 bits) 64)
  | .stringLiteral value => pure (.string value)
  | .identifier x =>
    match info.symbolNamed x with
    | some (.constant _ value) => pure (.int value)
    | _ => pure (.symbol x)
  | .binaryExpression l op r =>
    match op with
    | .add => lowerAddition info l r (lowerExpression info l) (lowerExpression info r)
    | .logicalAnd => shortCircuit true (lowerExpression info l) (lowerExpression info r)
    | .logicalOr => shortCircuit false (lowerExpression info l) (lowerExpression info r)
    | op => strictBinary info l op r (lowerExpression info l) (lowerExpression info r)
  | .unaryExpression op e =>
    match op with
    | .addressOf => do
      let (address, _) ← lowerLvalueAddress info true e
      pure address
    | .deref =>
      loadFrom info "Cannot dereference unknown type" (derefAddress info e (lowerExpression info e))
    | op => plainUnary info op e (lowerExpression info e)
  | .functionCall f arguments => lowerCall info f arguments (lowerArguments info arguments)
  | .methodCall object f arguments => do
    let receiver ← inferExpressionType info object
    if f = "sizeof" then lowerSizeof info arguments
    else if f = "static_assert" then pure .none
    else
      let mangled ← methodFunction receiver f
      lowerCall info mangled (object :: arguments) (do
        let first ← lowerExpression info object
        let rest ← lowerArguments info arguments
        pure (first :: rest))
  | .funcPtrCall function arguments =>
    lowerPointerCall info function arguments (lowerExpression info function)
      (lowerArguments info arguments)
  | .memberAccess object member =>
    loadFrom info "Cannot determine type for load"
      (memberAddress info object member (lowerExpression info object)
        (lowerLvalueAddress info true object))
  | .indexExpression array index =>
    loadFrom info "Cannot determine type for load"
      (indexAddress info array (lowerExpression info array) (lowerLvalueAddress info false array)
        (lowerExpression info index))
  | .newExpression typeName => lowerNew info typeName
  | .castExpression typeName e => lowerCast info typeName e (lowerExpression info e)
  | .matchExpression subject arms =>
    lowerMatch info subject (.matchExpression subject arms) (arms.map Prod.fst)
      (lowerExpression info subject) (lowerArms info arms)

/-- `ir_lower_lvalue_address`. -/
def lowerLvalueAddress (info : Lookups) (wantType : Bool) : Expr → Lower (IROperand × Option Ty)
  | .identifier x => identifierAddress info wantType x
  | .memberAccess object member =>
    memberAddress info object member (lowerExpression info object)
      (lowerLvalueAddress info true object)
  | .indexExpression array index =>
    indexAddress info array (lowerExpression info array) (lowerLvalueAddress info false array)
      (lowerExpression info index)
  | .unaryExpression .deref e => derefAddress info e (lowerExpression info e)
  | .unaryExpression _ _ => throw "Unsupported unary lvalue"
  | _ => throw "Expression is not assignable in IR lowering"

def lowerArguments (info : Lookups) : List Expr → Lower (List IROperand)
  | [] => pure []
  | e :: arguments => do
    let first ← lowerExpression info e
    let rest ← lowerArguments info arguments
    pure (first :: rest)

def lowerArms (info : Lookups) :
    List (Pattern × Expr) → (Pattern → Lower Unit) → String → String → List String → Lower Unit
  | (pattern, body) :: arms, bind, result, endLabel, label :: labels => do
    emitLabel label
    bind pattern
    let value ← lowerExpression info body
    emitSymbolAssignment info result value
    emitJump endLabel
    lowerArms info arms bind result endLabel labels
  | _, _, _, _, _ => pure ()

end

end Mettle.IR
