import Mathlib.Algebra.Group.Int.Defs
import Mathlib.Algebra.Group.Nat.Defs
import Mettle.Parser.Tree

/-!
# Mettle — types, symbols and assignability

The types of `symbol_table.h`, the predicates of `type_checker.c` that compare
and convert them, and the constant expressions the checker folds.

Structs, enums and tagged enums are only declared at top level and a name is
declared once, so a type of these kinds is its name here; the fields and the
variants are looked up through the checker's context.
-/

namespace Mettle.Semantic

open Mettle.Parser

-- ---
-- Types
-- ---

/-- `Type`. -/
inductive Ty where
  | int8 | int16 | int32 | int64
  | uint8 | uint16 | uint32 | uint64
  | bool | float32 | float64 | string
  | functionPointer (parameters : List Ty) (returnType : Ty)
  | pointer (name : String) (baseType : Ty)
  | array (name : String) (baseType : Ty) (arraySize : Nat)
  | struct (name : Name)
  | enum (name : Name)
  | taggedEnum (name : Name)
  | void

namespace Ty

/-- `type->name`; every function pointer is created as `function`. -/
def name : Ty → String
  | .int8 => "int8"
  | .int16 => "int16"
  | .int32 => "int32"
  | .int64 => "int64"
  | .uint8 => "uint8"
  | .uint16 => "uint16"
  | .uint32 => "uint32"
  | .uint64 => "uint64"
  | .bool => "bool"
  | .float32 => "float32"
  | .float64 => "float64"
  | .string => "string"
  | .functionPointer _ _ => "function"
  | .pointer name _ => name
  | .array name _ _ => name
  | .struct name => name
  | .enum name => name
  | .taggedEnum name => name
  | .void => "void"

def isAggregate : Ty → Bool
  | .array _ _ _ => true
  | .struct _ => true
  | .string => true
  | _ => false

/-- `kind == TYPE_POINTER`. -/
def isPointer : Ty → Bool
  | .pointer _ _ => true
  | _ => false

/-- `type_checker_is_integer_type`. -/
def isIntegerType : Ty → Bool
  | .int8 | .int16 | .int32 | .int64 => true
  | .uint8 | .uint16 | .uint32 | .uint64 => true
  | .bool => true
  | .enum _ => true
  | _ => false

/-- `type_checker_is_floating_type`. -/
def isFloatingType : Ty → Bool
  | .float32 => true
  | .float64 => true
  | _ => false

/-- `type_checker_is_numeric_type`. -/
def isNumericType (t : Ty) : Bool :=
  t.isIntegerType || t.isFloatingType

/-- `type_checker_get_type_rank`. -/
def typeRank : Ty → Nat
  | .int8 | .uint8 => 1
  | .int16 | .uint16 => 2
  | .int32 | .uint32 => 3
  | .float32 => 4
  | .int64 | .uint64 => 5
  | .float64 => 6
  | .string => 10
  | _ => 0

/-- `type_checker_get_larger_type`. -/
def largerType (t u : Ty) : Ty :=
  if u.typeRank ≤ t.typeRank then t else u

mutual

/-- `type_checker_types_equal`. -/
def typesEqual : Ty → Ty → Bool
  | .pointer _ b, .pointer _ b' => typesEqual b b'
  | .array _ b n, .array _ b' n' => n == n' && typesEqual b b'
  | .struct a, .struct a' => a == a'
  | .functionPointer ps r, .functionPointer ps' r' => typesEqual r r' && typesEqualList ps ps'
  | .enum _, .enum _ => true
  | .taggedEnum _, .taggedEnum _ => true
  | .int8, .int8 => true
  | .int16, .int16 => true
  | .int32, .int32 => true
  | .int64, .int64 => true
  | .uint8, .uint8 => true
  | .uint16, .uint16 => true
  | .uint32, .uint32 => true
  | .uint64, .uint64 => true
  | .bool, .bool => true
  | .float32, .float32 => true
  | .float64, .float64 => true
  | .string, .string => true
  | .void, .void => true
  | _, _ => false

def typesEqualList : List Ty → List Ty → Bool
  | [], [] => true
  | p :: ps, p' :: ps' => typesEqual p p' && typesEqualList ps ps'
  | _, _ => false

end

/-- `type_checker_is_cstring_type`. -/
def isCstringType : Ty → Bool
  | .pointer name _ => name == "cstring"
  | _ => false

/-- `kind` of both types is one of the kinds below `TYPE_POINTER`, `TYPE_ARRAY`
and `TYPE_STRUCT`, which convert to nothing but themselves. -/
def isRigid : Ty → Bool
  | .pointer _ _ => true
  | .array _ _ _ => true
  | .struct _ => true
  | _ => false

/-- `type_checker_is_implicitly_convertible`. -/
def isImplicitlyConvertible (fromType toType : Ty) : Bool :=
  typesEqual fromType toType ||
  (fromType.isIntegerType && toType.isIntegerType) ||
  (fromType.isIntegerType && toType.isFloatingType) ||
  (fromType.isFloatingType && toType.isFloatingType)

/-- `dest` is `cstring` and `src` points to a type named `int8`. -/
def isInt8PointerToCstring : Ty → Ty → Bool
  | .pointer name _, .pointer _ base => name == "cstring" && base.name == "int8"
  | _, _ => false

/-- `dest` points to the element type of the array `src`. -/
def isArrayDecay : Ty → Ty → Bool
  | .pointer _ base, .array _ element _ => typesEqual base element
  | _, _ => false

/-- `type_checker_is_assignable`. -/
def isAssignable (destType srcType : Ty) : Bool :=
  if typesEqual destType srcType then true
  else if destType.isCstringType && typesEqual srcType .string then true
  else if isInt8PointerToCstring destType srcType then true
  else if isArrayDecay destType srcType then true
  else if destType.isRigid || srcType.isRigid then false
  else isImplicitlyConvertible srcType destType

/-- `type_checker_are_compatible`. -/
def areCompatible (t u : Ty) : Bool :=
  if typesEqual t u then true
  else if t.isRigid || u.isRigid then false
  else isImplicitlyConvertible t u || isImplicitlyConvertible u t

/-- `kind == TYPE_FUNCTION_POINTER`. -/
def isFunctionPointer : Ty → Bool
  | .functionPointer _ _ => true
  | _ => false

/-- `type_checker_is_cast_valid`. -/
def isCastValid (fromType toType : Ty) : Bool :=
  typesEqual fromType toType ||
  (fromType.isNumericType && toType.isNumericType) ||
  (fromType.isPointer && toType.isPointer) ||
  (fromType.isIntegerType && toType.isPointer) ||
  (fromType.isPointer && toType.isIntegerType) ||
  (fromType.isPointer && toType.isFunctionPointer) ||
  (fromType.isFunctionPointer && toType.isPointer) ||
  (fromType.isIntegerType && toType.isFunctionPointer) ||
  (fromType.isFunctionPointer && toType.isIntegerType) ||
  (fromType.isFunctionPointer && toType.isFunctionPointer)

/-- `type_checker_promote_types`. -/
def promoteTypes (left right : Ty) (op : BinaryOp) : Ty :=
  match op with
  | .eq | .ne | .lt | .le | .gt | .ge => .int32
  | .add | .sub | .mul | .div | .mod =>
    if left.isFloatingType || right.isFloatingType then largerType left right
    else if left.isIntegerType && right.isIntegerType then largerType left right
    else left
  | .logicalAnd | .logicalOr => .int32
  | _ => left

end Ty

-- ---
-- Symbols
-- ---

inductive Symbol where
  | var (type : Ty) (isInitialized : Bool)
  | function (parameterTypes : List Ty) (returnType : Ty)
  | typeSymbol (type : Ty)
  | constant (type : Ty) (value : Int)
  | constructor (enumType : Ty) (payloadType : Option Ty)

/-- `symbol->type`: of a function, what it returns. -/
def Symbol.type : Symbol → Ty
  | .var t _ => t
  | .function _ r => r
  | .typeSymbol t => t
  | .constant t _ => t
  | .constructor t _ => t

/-- `kind == SYMBOL_VARIABLE`. -/
def Symbol.isVariable : Symbol → Bool
  | .var _ _ => true
  | _ => false

abbrev Scope := List (Name × Symbol)

-- ---
-- Constant expressions
-- ---

/-- The value of a `long long` computation. -/
def wrapLongLong (v : Int) : Int := v.bmod (2 ^ 64)

/-- The binary operators `type_checker_eval_integer_constant` folds. -/
def evalBinaryConstant (op : BinaryOp) (left right : Int) : Option Int :=
  match op with
  | .add => some (wrapLongLong (left + right))
  | .sub => some (wrapLongLong (left - right))
  | .mul => some (wrapLongLong (left * right))
  | .div => if right = 0 then none else some (wrapLongLong (left.tdiv right))
  | .mod => if right = 0 then none else some (left.tmod right)
  | .eq => some (if left = right then 1 else 0)
  | .ne => some (if left = right then 0 else 1)
  | .lt => some (if left < right then 1 else 0)
  | .le => some (if left ≤ right then 1 else 0)
  | .gt => some (if right < left then 1 else 0)
  | .ge => some (if right ≤ left then 1 else 0)
  | .logicalAnd => some (if left ≠ 0 ∧ right ≠ 0 then 1 else 0)
  | .logicalOr => some (if left ≠ 0 ∨ right ≠ 0 then 1 else 0)
  | _ => none

/-- The value of a `sizeof`, where it fits a `long long`. -/
def sizeofConstant (typeSize : String → Option Nat) (t : String) : Option Int :=
  (typeSize t).bind fun size => if size < 2 ^ 63 then some (size : Int) else none

/-- `type_checker_eval_integer_constant_with_checker`. -/
def evalIntegerConstantWith (constantValue : Name → Option Int)
    (typeSize : String → Option Nat) : Expr → Option Int
  | .numberLiteral v _ => some v
  | .identifier x => constantValue x
  | .functionCall "sizeof" [.identifier t] => sizeofConstant typeSize t
  | .methodCall _ "sizeof" [.identifier t] => sizeofConstant typeSize t
  | .unaryExpression .plus e => evalIntegerConstantWith constantValue typeSize e
  | .unaryExpression .minus e =>
    (evalIntegerConstantWith constantValue typeSize e).map fun v => wrapLongLong (-v)
  | .binaryExpression l op r =>
    match evalIntegerConstantWith constantValue typeSize l,
      evalIntegerConstantWith constantValue typeSize r with
    | some left, some right => evalBinaryConstant op left right
    | _, _ => none
  | _ => none

/-- `type_checker_eval_integer_constant`. -/
def evalIntegerConstant : Expr → Option Int :=
  evalIntegerConstantWith (fun _ => none) (fun _ => none)

/-- `type_checker_is_null_pointer_constant`. -/
def isNullPointerConstant (e : Expr) : Bool :=
  evalIntegerConstant e == some 0

/-- `type_checker_is_lvalue_expression`. -/
def isLvalueExpression : Expr → Bool
  | .identifier _ => true
  | .memberAccess _ _ => true
  | .indexExpression _ _ => true
  | .unaryExpression .deref _ => true
  | _ => false

/-- `type_checker_default_integer_literal_type`. -/
def defaultIntegerLiteralType (value : Int) (radix : Nat) : Ty :=
  let unsigned := value % 2 ^ 64
  if radix = 2 ∨ radix = 16 then
    if unsigned ≤ 2 ^ 31 - 1 then .int32
    else if unsigned ≤ 2 ^ 32 - 1 then .uint32
    else if unsigned ≤ 2 ^ 63 - 1 then .int64
    else .uint64
  else if -2 ^ 31 ≤ value ∧ value ≤ 2 ^ 31 - 1 then .int32
  else if unsigned ≤ 2 ^ 63 - 1 then .int64
  else .uint64

end Mettle.Semantic
