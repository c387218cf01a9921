import Mettle.Codegen.FrameLayout
import Mettle.Codegen.ScalarAccess
import Mettle.Lib.Bytes
import Mathlib.Data.List.Induction

/-!
# Mettle — the values of constant globals

How the binary back end (`codegen/binary/globals.c`) evaluates the initialiser of a global. One
routine computes it in 64 bits, whatever the types are. What comes out is emitted as the bytes of
the global, and is kept in a table: a read of a global that no instruction writes does not load
the bytes but takes the word from the table.

`typedEval` says what the initialiser means under its types. The two agree if no cast and no
operator does something at its type that it does not do in 64 bits (`Exact`). The word of the
table is what a load gives if it is a word of the declared type.
-/

namespace Mettle.Codegen

open Mettle.IR Mettle.Lib List Option

-- ---
-- Types
-- ---

/-- The types of constant expressions, as far as the back end tells them apart. -/
inductive ScalarType
  | integer (type : IntType)
  | bool
  | enum
  | pointer (elementSize : Nat)
  | functionPointer
  | float32
  | float64
  | other
  deriving DecidableEq

/-- `code_generator_binary_resolved_type_is_supported`. -/
def ScalarType.isSupported : ScalarType → Bool
  | .bool | .other => false
  | _ => true

/-- `code_generator_binary_resolved_type_scalar_size`. -/
def ScalarType.bytes : ScalarType → Nat
  | .integer type => type.bytes
  | .bool => 1
  | .float32 => 4
  | _ => 8

/-- `code_generator_binary_resolved_type_is_signed_integer`. -/
def ScalarType.signed : ScalarType → Bool
  | .integer type => type.signed
  | _ => false

/-- `code_generator_binary_resolved_type_float_bits` is not 0. -/
def ScalarType.isFloat : ScalarType → Bool
  | .float32 | .float64 => true
  | _ => false

def ScalarType.isPointer : ScalarType → Bool
  | .pointer _ => true
  | _ => false

/-- `type_checker_get_type_rank`. -/
def ScalarType.rank : ScalarType → Nat
  | .integer .int8 | .integer .uint8 => 1
  | .integer .int16 | .integer .uint16 => 2
  | .integer .int32 | .integer .uint32 => 3
  | .float32 => 4
  | .integer .int64 | .integer .uint64 => 5
  | .float64 => 6
  | _ => 0

/-- `type_checker_get_larger_type`. -/
def largerType (left right : ScalarType) : ScalarType :=
  if right.rank ≤ left.rank then left else right

/-- `type_checker_default_integer_literal_type`. -/
def defaultIntegerLiteralType (value : Word) (radix : Nat) : IntType :=
  if radix ≠ 2 ∧ radix ≠ 16 then
    if -2 ^ 31 ≤ value.toInt ∧ value.toInt < 2 ^ 31 then .int32
    else if value.toNat < 2 ^ 63 then .int64
    else .uint64
  else if value.toNat < 2 ^ 31 then .int32
  else if value.toNat < 2 ^ 32 then .uint32
  else if value.toNat < 2 ^ 63 then .int64
  else .uint64

def isArithmetic (op : String) : Bool := op ∈ ["+", "-", "*", "/", "%"]

def isBitwise (op : String) : Bool := op ∈ ["&", "|", "^", "<<", ">>"]

def isLogical (op : String) : Bool := op ∈ ["&&", "||"]

def movesPointer (op : String) (left right : ScalarType) : Bool :=
  op ∈ ["+", "-"] && (left.isPointer || right.isPointer)

def commonType (op : String) (left right : ScalarType) : ScalarType :=
  if isBitwise op then left else largerType left right

/-- `type_checker_check_binary_expression`, for operands that it accepts. -/
def binaryType (op : String) (left right : ScalarType) : ScalarType :=
  if movesPointer op left right then
    if left.isPointer && right.isPointer then .integer .int64
    else if left.isPointer then left
    else right
  else if isArithmetic op || isBitwise op then commonType op left right
  else .bool

-- ---
-- Initialisers
-- ---

/-- The arithmetic of doubles, of which nothing is used but that rounding to a `float32` twice
rounds it once. -/
structure Doubles (F : Type) where
  ofInt : Int → F
  -- `(long long)`
  toInt : F → Word
  neg : F → F
  add : F → F → F
  sub : F → F → F
  mul : F → F → F
  div : F → F → F
  eq : F → F → Bool
  lt : F → F → Bool
  le : F → F → Bool
  bits : F → Word
  -- the value as a `float32`, and the bits of it
  single : F → F
  singleBits : F → BitVec 32
  single_bits : ∀ f, singleBits (single f) = singleBits f

inductive Initializer (F : Type)
  | number (value : Word) (radix : Nat)
  | real (value : F)
  | identifier (name : String)
  | unary (op : String) (operand : Initializer F)
  | binary (op : String) (left right : Initializer F)
  | cast (target : ScalarType) (operand : Initializer F)
  | other
  deriving DecidableEq

variable {F : Type}

section Evaluation

variable (doubles : Doubles F) (types : String → Option ScalarType)

/-- The `resolved_type` of an expression that the type checker accepts. -/
def typeOf : Initializer F → ScalarType
  | .number value radix => .integer (defaultIntegerLiteralType value radix)
  | .real _ => .float64
  | .identifier name => (types name).getD .other
  | .unary op operand => if op = "!" then .integer .int32 else typeOf operand
  | .binary op left right => binaryType op (typeOf left) (typeOf right)
  | .cast target _ => target
  | .other => .other

/-- `BinaryNumericConstant`. -/
structure NumericConstant (F : Type) where
  intValue : Word
  floatValue : F
  isFloat : Bool
  deriving DecidableEq

/-- `code_generator_binary_numeric_constant_from_int`. -/
def fromInt (value : Word) : NumericConstant F :=
  { intValue := value, floatValue := doubles.ofInt value.toInt, isFloat := false }

/-- `code_generator_binary_numeric_constant_from_double`. -/
def fromDouble (value : F) : NumericConstant F :=
  { intValue := doubles.toInt value, floatValue := value, isFloat := true }

def NumericConstant.asDouble (c : NumericConstant F) : F :=
  if c.isFloat then c.floatValue else doubles.ofInt c.intValue.toInt

def NumericConstant.asInteger (c : NumericConstant F) : Word :=
  if c.isFloat then doubles.toInt c.floatValue else c.intValue

def truth (b : Bool) : Word := if b then 1 else 0

def floatOperation (op : String) (x y : F) : Option (NumericConstant F) :=
  if op = "+" then some (fromDouble doubles (doubles.add x y))
  else if op = "-" then some (fromDouble doubles (doubles.sub x y))
  else if op = "*" then some (fromDouble doubles (doubles.mul x y))
  else if op = "/" then some (fromDouble doubles (doubles.div x y))
  else if op = "==" then some (fromInt doubles (truth (doubles.eq x y)))
  else if op = "!=" then some (fromInt doubles (truth (!doubles.eq x y)))
  else if op = "<" then some (fromInt doubles (truth (doubles.lt x y)))
  else if op = "<=" then some (fromInt doubles (truth (doubles.le x y)))
  else if op = ">" then some (fromInt doubles (truth (doubles.lt y x)))
  else if op = ">=" then some (fromInt doubles (truth (doubles.le y x)))
  else none

/-- The least value by -1: the division that traps in the compiler. -/
def divisionTraps (x y : Word) : Bool := x == BitVec.intMin 64 && y == -1

/-- The operators of the evaluation in 64 bits: division and order are those of `long long`.
`none` where the routine returns 0, and where the compiler does not come back from it. -/
def wordOperation (op : String) (x y : Word) : Option Word :=
  if op = "+" then some (x + y)
  else if op = "-" then some (x - y)
  else if op = "*" then some (x * y)
  else if op = "/" then
    if y = 0 then none else if divisionTraps x y then none else some (x.sdiv y)
  else if op = "%" then
    if y = 0 then none else if divisionTraps x y then none else some (x.srem y)
  else if op = "==" then some (truth (x == y))
  else if op = "!=" then some (truth (x != y))
  else if op = "<" then some (truth (decide (x.toInt < y.toInt)))
  else if op = "<=" then some (truth (decide (x.toInt ≤ y.toInt)))
  else if op = ">" then some (truth (decide (y.toInt < x.toInt)))
  else if op = ">=" then some (truth (decide (y.toInt ≤ x.toInt)))
  else if op = "&&" then some (truth (x != 0 && y != 0))
  else if op = "||" then some (truth (x != 0 || y != 0))
  else if op = "&" then some (x &&& y)
  else if op = "|" then some (x ||| y)
  else if op = "^" then some (x ^^^ y)
  else none

/-- The unary operators; `expressionIsFloat` is known of the whole expression. -/
def unaryOperation (op : String) (expressionIsFloat : Bool) (c : NumericConstant F) :
    Option (NumericConstant F) :=
  if op = "+" then some c
  else if op = "-" then
    if c.isFloat || expressionIsFloat then
      some (fromDouble doubles (doubles.neg (c.asDouble doubles)))
    else some (fromInt doubles (-c.intValue))
  else if op = "!" then
    some (fromInt doubles (truth (if c.isFloat then doubles.eq c.floatValue (doubles.ofInt 0)
      else c.intValue == 0)))
  else if op = "~" then
    if c.isFloat then none else some (fromInt doubles (~~~c.intValue))
  else none

/-- `code_generator_binary_eval_numeric_global_initializer`. -/
def evalNumericGlobalInitializer (table : String → Option (NumericConstant F)) :
    Initializer F → Option (NumericConstant F)
  | .number value _ => some (fromInt doubles value)
  | .real value => some (fromDouble doubles value)
  | .identifier name => table name
  | .unary op operand =>
    (evalNumericGlobalInitializer table operand).bind
      (unaryOperation doubles op (typeOf types (.unary op operand)).isFloat)
  | .binary op left right =>
    (evalNumericGlobalInitializer table left).bind fun l =>
    (evalNumericGlobalInitializer table right).bind fun r =>
      if l.isFloat || r.isFloat || (typeOf types (.binary op left right)).isFloat then
        floatOperation doubles op (l.asDouble doubles) (r.asDouble doubles)
      else (wordOperation op l.intValue r.intValue).map (fromInt doubles)
  | .cast target operand =>
    (evalNumericGlobalInitializer table operand).map fun c =>
      if target.isFloat then fromDouble doubles (c.asDouble doubles)
      else fromInt doubles (c.asInteger doubles)
  | .other => none

end Evaluation

-- ---
-- What initialisers mean
-- ---

def ScalarType.narrow (type : ScalarType) (w : Word) : Word :=
  extendScalar type.bytes type.signed w

def ScalarType.value (type : ScalarType) (w : Word) : Int :=
  if type.signed then (type.narrow w).toInt else (type.narrow w).toNat

/-- A value at a type: the word of an integer, an enum, or a pointer, or a float. -/
inductive TypedValue (F : Type)
  | word (w : Word)
  | real (value : F)
  deriving DecidableEq

section Meaning

variable (doubles : Doubles F) (types : String → Option ScalarType)

/-- A `float32` holds fewer numbers than a `float64`. -/
def ScalarType.round (type : ScalarType) (value : F) : F :=
  if type = .float32 then doubles.single value else value

def toType (source target : ScalarType) : TypedValue F → TypedValue F
  | .word w =>
    if target.isFloat then .real (target.round doubles (doubles.ofInt (source.value w)))
    else .word (target.narrow w)
  | .real value =>
    if target.isFloat then .real (target.round doubles value)
    else .word (target.narrow (doubles.toInt value))

def TypedValue.isTrue : TypedValue F → Bool
  | .word w => w != 0
  | .real value => !doubles.eq value (doubles.ofInt 0)

def typedWords (op : String) (type : ScalarType) (x y : Word) : Option Word :=
  if op = "+" then some (type.narrow (x + y))
  else if op = "-" then some (type.narrow (x - y))
  else if op = "*" then some (type.narrow (x * y))
  else if op = "/" then
    if y = 0 then none
    else some (type.narrow (BitVec.ofInt 64 ((type.value x).tdiv (type.value y))))
  else if op = "%" then
    if y = 0 then none
    else some (type.narrow (BitVec.ofInt 64 ((type.value x).tmod (type.value y))))
  else if op = "==" then some (truth (x == y))
  else if op = "!=" then some (truth (x != y))
  else if op = "<" then some (truth (decide (type.value x < type.value y)))
  else if op = "<=" then some (truth (decide (type.value x ≤ type.value y)))
  else if op = ">" then some (truth (decide (type.value y < type.value x)))
  else if op = ">=" then some (truth (decide (type.value y ≤ type.value x)))
  else if op = "&" then some (type.narrow (x &&& y))
  else if op = "|" then some (type.narrow (x ||| y))
  else if op = "^" then some (type.narrow (x ^^^ y))
  else none

def typedReals (op : String) (type : ScalarType) (x y : F) : Option (TypedValue F) :=
  if op = "+" then some (.real (type.round doubles (doubles.add x y)))
  else if op = "-" then some (.real (type.round doubles (doubles.sub x y)))
  else if op = "*" then some (.real (type.round doubles (doubles.mul x y)))
  else if op = "/" then some (.real (type.round doubles (doubles.div x y)))
  else if op = "==" then some (.word (truth (doubles.eq x y)))
  else if op = "!=" then some (.word (truth (!doubles.eq x y)))
  else if op = "<" then some (.word (truth (doubles.lt x y)))
  else if op = "<=" then some (.word (truth (doubles.le x y)))
  else if op = ">" then some (.word (truth (doubles.lt y x)))
  else if op = ">=" then some (.word (truth (doubles.le y x)))
  else none

def movedPointer (op : String) (left right : ScalarType) (x y : Word) : Option Word :=
  match left, right with
  | .pointer _, .pointer _ => if op = "-" then some (x - y) else none
  | .pointer size, _ =>
    some (if op = "+" then x + BitVec.ofNat 64 size * y else x - BitVec.ofNat 64 size * y)
  | _, .pointer size => if op = "+" then some (BitVec.ofNat 64 size * x + y) else none
  | _, _ => none

def typedUnary (op : String) (type : ScalarType) (v : TypedValue F) : Option (TypedValue F) :=
  if op = "+" then some v
  else if op = "-" then
    match v with
    | .word w => some (.word (type.narrow (-w)))
    | .real value => some (.real (type.round doubles (doubles.neg value)))
  else if op = "!" then some (.word (truth (!v.isTrue doubles)))
  else if op = "~" then
    match v with
    | .word w => some (.word (type.narrow (~~~w)))
    | .real _ => none
  else none

def typedBinary (op : String) (left right : ScalarType) (a b : TypedValue F) :
    Option (TypedValue F) :=
  if movesPointer op left right then
    match a, b with
    | .word x, .word y => (movedPointer op left right x y).map .word
    | _, _ => none
  else if op = "&&" then some (.word (truth (a.isTrue doubles && b.isTrue doubles)))
  else if op = "||" then some (.word (truth (a.isTrue doubles || b.isTrue doubles)))
  else
    match toType doubles left (commonType op left right) a,
      toType doubles right (commonType op left right) b with
    | .word x, .word y => (typedWords op (commonType op left right) x y).map .word
    | .real x, .real y => typedReals doubles op (commonType op left right) x y
    | _, _ => none

def typedEval (values : String → Option (TypedValue F)) : Initializer F → Option (TypedValue F)
  | .number value _ => some (.word value)
  | .real value => some (.real value)
  | .identifier name => values name
  | .unary op operand =>
    (typedEval values operand).bind (typedUnary doubles op (typeOf types operand))
  | .binary op left right =>
    (typedEval values left).bind fun l =>
    (typedEval values right).bind fun r =>
      typedBinary doubles op (typeOf types left) (typeOf types right) l r
  | .cast target operand =>
    (typedEval values operand).map (toType doubles (typeOf types operand) target)
  | .other => none

-- ---
-- Where the types make no difference
-- ---

def OfType (type : ScalarType) (c : NumericConstant F) : Prop :=
  if type.isFloat then c.isFloat = true ∧ type.round doubles c.floatValue = c.floatValue
  else c.isFloat = false ∧ type.narrow c.intValue = c.intValue

/-- The conversion of the constant changes nothing but how it is written. -/
def ConvertsTo (source target : ScalarType) (c : NumericConstant F) : Prop :=
  if target.isFloat then
    target.round doubles (c.asDouble doubles) = c.asDouble doubles ∧
      (c.isFloat = false → source.value c.intValue = c.intValue.toInt)
  else target.narrow (c.asInteger doubles) = c.asInteger doubles

/-- The sum or difference with a pointer is one that the type checker accepts, and counts
bytes. -/
def MovesBytes (op : String) (left right : ScalarType) (a b : NumericConstant F) : Prop :=
  a.isFloat = false ∧ b.isFloat = false ∧
    match left, right with
    | .pointer _, .pointer _ => op = "-"
    | .pointer size, _ => size = 1 ∨ b.intValue = 0
    | _, .pointer size => op = "+" ∧ (size = 1 ∨ a.intValue = 0)
    | _, _ => True

/-- The operator does in 64 bits what it does at the types of its operands: they are converted
without loss, the order and the division take them for the same numbers, the division does not
trap, and the result is of its type. -/
def OperatorExact (op : String) (left right : ScalarType) (a b : NumericConstant F) : Prop :=
  if movesPointer op left right then MovesBytes op left right a b
  else if isLogical op then True
  else
    ConvertsTo doubles left (commonType op left right) a ∧
    ConvertsTo doubles right (commonType op left right) b ∧
    ((commonType op left right).isFloat = false → a.isFloat = false ∧ b.isFloat = false) ∧
    (op ∈ ["/", "%", "<", "<=", ">", ">="] → (commonType op left right).isFloat = false →
      (commonType op left right).value a.intValue = a.intValue.toInt ∧
      (commonType op left right).value b.intValue = b.intValue.toInt) ∧
    (op ∈ ["/", "%"] → (commonType op left right).isFloat = false →
      divisionTraps a.intValue b.intValue = false)

/-- Nothing in the initialiser depends on its types; `good` says so of the globals that it
refers to. -/
def Exact (table : String → Option (NumericConstant F)) (good : String → Prop) :
    Initializer F → Prop
  | .number _ _ => True
  | .real _ => True
  | .identifier name => good name
  | .unary op operand =>
    Exact table good operand ∧
      ∀ c, evalNumericGlobalInitializer doubles types table (.unary op operand) = some c →
        OfType doubles (typeOf types (.unary op operand)) c
  | .binary op left right =>
    Exact table good left ∧ Exact table good right ∧
      (∀ a b, evalNumericGlobalInitializer doubles types table left = some a →
        evalNumericGlobalInitializer doubles types table right = some b →
        OperatorExact doubles op (typeOf types left) (typeOf types right) a b) ∧
      ∀ c, evalNumericGlobalInitializer doubles types table (.binary op left right) = some c →
        OfType doubles (typeOf types (.binary op left right)) c
  | .cast target operand =>
    Exact table good operand ∧
      ∀ c, evalNumericGlobalInitializer doubles types table operand = some c →
        ConvertsTo doubles (typeOf types operand) target c
  | .other => True

end Meaning

-- ---
-- The two evaluations
-- ---

variable {values : String → Option (TypedValue F)} {good : String → Prop}

section Sound

variable {doubles : Doubles F} {types : String → Option ScalarType}

def NumericConstant.typed (c : NumericConstant F) : TypedValue F :=
  if c.isFloat then .real c.floatValue else .word c.intValue

variable {type : ScalarType}

theorem narrow_eight (h : type.bytes = 8) (w : Word) : type.narrow w = w := by
  rw [ScalarType.narrow, h, extendScalar_eight]

theorem narrow_literal (value : Word) (radix : Nat) :
    (ScalarType.integer (defaultIntegerLiteralType value radix)).narrow value = value := by
  have hSmall : -2 ^ 31 ≤ value.toInt → value.toInt < 2 ^ 31 →
      extendScalar 4 true value = value := by
    intro hLo hHi
    rw [BitVec.toInt_eq_toNat_cond] at hLo hHi
    apply BitVec.eq_of_toNat_eq
    rw [toNat_extendScalar_signed (by decide)]
    split at hLo <;> omega
  have hInt : value.toNat < 2 ^ 31 → -2 ^ 31 ≤ value.toInt ∧ value.toInt < 2 ^ 31 := by
    intro hLt
    rw [BitVec.toInt_eq_toNat_cond]
    split <;> omega
  unfold defaultIntegerLiteralType
  split
  · split
    · rename_i hRange
      exact hSmall hRange.1 hRange.2
    · split <;> exact narrow_eight rfl value
  · split
    · rename_i hLt
      exact hSmall (hInt hLt).1 (hInt hLt).2
    · split
      · rename_i hLt
        apply BitVec.eq_of_toNat_eq
        show (extendScalar 4 false value).toNat = _
        rw [toNat_extendScalar_unsigned (by decide)]
        omega
      · split <;> exact narrow_eight rfl value

variable {c : NumericConstant F}

theorem toType_typed {source target : ScalarType} (hConverts : ConvertsTo doubles source target c) :
    toType doubles source target c.typed =
      if target.isFloat then .real (c.asDouble doubles) else .word (c.asInteger doubles) := by
  unfold ConvertsTo at hConverts
  unfold NumericConstant.typed toType NumericConstant.asDouble NumericConstant.asInteger at *
  cases hFloat : c.isFloat with
  | true =>
    simp only [hFloat, if_true] at hConverts ⊢
    split at hConverts
    · rename_i hTarget
      rw [if_pos hTarget, if_pos hTarget, hConverts.1]
    · rename_i hTarget
      rw [if_neg hTarget, if_neg hTarget, hConverts]
  | false =>
    simp only [hFloat, Bool.false_eq_true, if_false] at hConverts ⊢
    split at hConverts
    · rename_i hTarget
      rw [if_pos hTarget, if_pos hTarget, hConverts.2 trivial, hConverts.1]
    · rename_i hTarget
      rw [if_neg hTarget, if_neg hTarget, hConverts]

theorem ofInt_tdiv (x y : Word) : BitVec.ofInt 64 (x.toInt.tdiv y.toInt) = x.sdiv y := by
  apply BitVec.eq_of_toInt_eq
  rw [BitVec.toInt_ofInt, BitVec.toInt_sdiv]

theorem ofInt_tmod (x y : Word) : BitVec.ofInt 64 (x.toInt.tmod y.toInt) = x.srem y := by
  rw [← BitVec.toInt_srem, BitVec.ofInt_toInt]

/-- What the second computation gives wherever the first one gives something. -/
def GoesWith {α β : Type} (R : α → Option β → Prop) (o : Option α) (o' : Option β) : Prop :=
  ∀ a, o = some a → R a o'

theorem GoesWith.ite {α β : Type} {R : α → Option β → Prop} {p : Prop} [Decidable p]
    {o₁ o₂ : Option α} {o₁' o₂' : Option β} (hThen : p → GoesWith R o₁ o₁')
    (hElse : ¬ p → GoesWith R o₂ o₂') :
    GoesWith R (if p then o₁ else o₂) (if p then o₁' else o₂') := by
  by_cases h : p
  · rw [if_pos h, if_pos h]
    exact hThen h
  · rw [if_neg h, if_neg h]
    exact hElse h

theorem GoesWith.ite_none {α β : Type} {R : α → Option β → Prop} {p : Prop} [Decidable p]
    {o : Option α} {o' : Option β} (hElse : GoesWith R o o') :
    GoesWith R (if p then none else o) o' := by
  intro a ha
  split at ha
  · cases ha
  · exact hElse a ha

def SameWord (op : String) (type : ScalarType) (z : Word) (o : Option Word) : Prop :=
  (isArithmetic op = true ∨ isBitwise op = true → type.narrow z = z) → o = some z

variable {op : String}

theorem typedWords_follows {x y : Word} (hLogical : isLogical op = false)
    (hValue : op ∈ ["/", "%", "<", "<=", ">", ">="] →
      type.value x = x.toInt ∧ type.value y = y.toInt) :
    GoesWith (SameWord op type) (wordOperation op x y) (typedWords op type x y) := by
  have hNarrow : ∀ {z : Word}, isArithmetic op = true ∨ isBitwise op = true →
      GoesWith (SameWord op type) (some z) (some (type.narrow z)) := by
    intro z hOp a ha hExact
    cases ha
    rw [hExact hOp]
  have hSame : ∀ {z z' : Word}, z' = z → GoesWith (SameWord op type) (some z) (some z') := by
    rintro z _ rfl a ha _
    cases ha
    rfl
  have hNone : ∀ {o : Option Word}, GoesWith (SameWord op type) none o := fun a ha => by cases ha
  refine .ite (fun h => hNarrow (by rw [h]; decide)) fun _ => ?_
  refine .ite (fun h => hNarrow (by rw [h]; decide)) fun _ => ?_
  refine .ite (fun h => hNarrow (by rw [h]; decide)) fun _ => ?_
  refine .ite (fun h => ?_) fun _ => ?_
  · obtain ⟨hx, hy⟩ := hValue (by rw [h]; decide)
    rw [hx, hy, ofInt_tdiv]
    exact .ite (fun _ => hNone) fun _ => .ite_none (hNarrow (by rw [h]; decide))
  refine .ite (fun h => ?_) fun _ => ?_
  · obtain ⟨hx, hy⟩ := hValue (by rw [h]; decide)
    rw [hx, hy, ofInt_tmod]
    exact .ite (fun _ => hNone) fun _ => .ite_none (hNarrow (by rw [h]; decide))
  refine .ite (fun _ => hSame rfl) fun _ => ?_
  refine .ite (fun _ => hSame rfl) fun _ => ?_
  refine .ite (fun h => ?_) fun _ => ?_
  · obtain ⟨hx, hy⟩ := hValue (by rw [h]; decide)
    exact hSame (by rw [hx, hy])
  refine .ite (fun h => ?_) fun _ => ?_
  · obtain ⟨hx, hy⟩ := hValue (by rw [h]; decide)
    exact hSame (by rw [hx, hy])
  refine .ite (fun h => ?_) fun _ => ?_
  · obtain ⟨hx, hy⟩ := hValue (by rw [h]; decide)
    exact hSame (by rw [hx, hy])
  refine .ite (fun h => ?_) fun _ => ?_
  · obtain ⟨hx, hy⟩ := hValue (by rw [h]; decide)
    exact hSame (by rw [hx, hy])
  -- the logical operators are none of the typed ones
  rw [if_neg (by rintro rfl; exact absurd hLogical (by decide)),
    if_neg (by rintro rfl; exact absurd hLogical (by decide))]
  refine .ite (fun h => hNarrow (by rw [h]; decide)) fun _ => ?_
  refine .ite (fun h => hNarrow (by rw [h]; decide)) fun _ => ?_
  refine .ite (fun h => hNarrow (by rw [h]; decide)) fun _ => ?_
  exact hNone

def SameValue (doubles : Doubles F) (op : String) (type : ScalarType) (c : NumericConstant F)
    (o : Option (TypedValue F)) : Prop :=
  (isArithmetic op = true → OfType doubles type c) → o = some c.typed

theorem typedReals_follows {x y : F} (hType : type.isFloat = true) :
    GoesWith (SameValue doubles op type) (floatOperation doubles op x y)
      (typedReals doubles op type x y) := by
  have hRound : ∀ {value : F}, isArithmetic op = true →
      GoesWith (SameValue doubles op type) (some (fromDouble doubles value))
        (some (.real (type.round doubles value))) := by
    intro value hOp c hc hExact
    cases hc
    have hOf := hExact hOp
    rw [OfType, if_pos hType] at hOf
    exact congrArg (fun v => some (TypedValue.real v)) hOf.2
  have hTruth : ∀ {b : Bool}, GoesWith (SameValue doubles op type)
      (some (fromInt doubles (truth b))) (some (.word (truth b))) := by
    intro b c hc _
    cases hc
    rfl
  refine .ite (fun h => hRound (by rw [h]; decide)) fun _ => ?_
  refine .ite (fun h => hRound (by rw [h]; decide)) fun _ => ?_
  refine .ite (fun h => hRound (by rw [h]; decide)) fun _ => ?_
  refine .ite (fun h => hRound (by rw [h]; decide)) fun _ => ?_
  refine .ite (fun _ => hTruth) fun _ => ?_
  refine .ite (fun _ => hTruth) fun _ => ?_
  refine .ite (fun _ => hTruth) fun _ => ?_
  refine .ite (fun _ => hTruth) fun _ => ?_
  refine .ite (fun _ => hTruth) fun _ => ?_
  refine .ite (fun _ => hTruth) fun _ => ?_
  exact fun c hc => by cases hc

theorem OfType.isFloat_eq (h : OfType doubles type c) : c.isFloat = type.isFloat := by
  unfold OfType at h
  split at h
  · rename_i hType
    rw [h.1, hType]
  · rename_i hType
    rw [h.1]
    exact ((Bool.not_eq_true _).mp hType).symm

theorem OfType.narrow (h : OfType doubles type c) (hType : type.isFloat = false) :
    type.narrow c.intValue = c.intValue := by
  rw [OfType, hType] at h
  exact h.2

@[simp] theorem typed_fromInt (w : Word) : (fromInt doubles w).typed = .word w := rfl

@[simp] theorem typed_fromDouble (value : F) : (fromDouble doubles value).typed = .real value := rfl

theorem typed_of_float (h : c.isFloat = true) : c.typed = .real c.floatValue := if_pos h

theorem typed_of_word (h : c.isFloat = false) : c.typed = .word c.intValue := by
  rw [NumericConstant.typed, h]
  rfl

theorem typedUnary_of_unaryOperation {c' : NumericConstant F}
    (hOperation : unaryOperation doubles op
      (if op = "!" then ScalarType.integer .int32 else type).isFloat c = some c')
    (hOperand : OfType doubles type c)
    (hResult : OfType doubles (if op = "!" then .integer .int32 else type) c') :
    typedUnary doubles op type c.typed = some c'.typed := by
  have hKind := hOperand.isFloat_eq
  unfold unaryOperation at hOperation
  unfold typedUnary
  split at hOperation
  · rename_i hPlus
    rw [if_pos hPlus, some.inj hOperation]
  · rename_i hPlus
    rw [if_neg hPlus]
    split at hOperation
    · rename_i hMinus
      have hNot : ¬ op = "!" := by rw [hMinus]; decide
      rw [if_pos hMinus]
      rw [if_neg hNot] at hOperation hResult
      cases hType : type.isFloat with
      | true =>
        rw [hType] at hKind
        rw [hKind, Bool.true_or, if_pos rfl] at hOperation
        cases hOperation
        rw [OfType, if_pos hType] at hResult
        rw [typed_of_float hKind, typed_fromDouble]
        have hDouble : c.asDouble doubles = c.floatValue := if_pos hKind
        have hRound : type.round doubles (doubles.neg (c.asDouble doubles)) =
          doubles.neg (c.asDouble doubles) := hResult.2
        rw [hDouble] at hRound ⊢
        dsimp only
        rw [hRound]
      | false =>
        rw [hType] at hKind
        rw [hKind, hType, Bool.or_self, if_neg Bool.false_ne_true] at hOperation
        cases hOperation
        have hNarrow : type.narrow (-c.intValue) = -c.intValue := hResult.narrow hType
        rw [typed_of_word hKind]
        dsimp only
        rw [hNarrow]
        rfl
    · rename_i hMinus
      rw [if_neg hMinus]
      split at hOperation
      · rename_i hNot
        rw [if_pos hNot]
        cases hOperation
        cases hFloat : c.isFloat with
        | true => simp [typed_of_float hFloat, TypedValue.isTrue]
        | false => simp [typed_of_word hFloat, TypedValue.isTrue, bne]
      · rename_i hNot
        rw [if_neg hNot]
        rw [if_neg hNot] at hResult
        split at hOperation
        · rename_i hTilde
          rw [if_pos hTilde]
          cases hFloat : c.isFloat with
          | true =>
            rw [hFloat] at hOperation
            cases hOperation
          | false =>
            rw [hFloat, if_neg Bool.false_ne_true] at hOperation
            cases hOperation
            have hNarrow : type.narrow (~~~c.intValue) = ~~~c.intValue :=
              hResult.narrow (hKind.symm.trans hFloat)
            rw [typed_of_word hFloat]
            dsimp only
            rw [hNarrow]
            rfl
        · cases hOperation

variable {left right : ScalarType}

theorem movedPointer_of_wordOperation {a b : NumericConstant F} {z : Word}
    (hMoves : movesPointer op left right = true) (hBytes : MovesBytes op left right a b)
    (hWord : wordOperation op a.intValue b.intValue = some z) :
    movedPointer op left right a.intValue b.intValue = some z := by
  obtain ⟨hOp, hPointer⟩ : op ∈ ["+", "-"] ∧ (left.isPointer = true ∨ right.isPointer = true) := by
    simpa [movesPointer] using hMoves
  have hScale : ∀ {size : Nat} {w : Word}, size = 1 ∨ w = 0 → BitVec.ofNat 64 size * w = w := by
    rintro size w (rfl | rfl)
    · exact BitVec.one_mul w
    · exact BitVec.mul_zero
  simp only [mem_cons, not_mem_nil, or_false] at hOp
  have hPlus : op = "+" → z = a.intValue + b.intValue := by
    rintro rfl
    exact (some.inj hWord).symm
  have hMinus : op = "-" → z = a.intValue - b.intValue := by
    rintro rfl
    exact (some.inj hWord).symm
  obtain ⟨-, -, hScaled⟩ := hBytes
  unfold movedPointer
  split at hScaled
  · rw [if_pos hScaled, hMinus hScaled]
  · rw [hScale hScaled]
    rcases hOp with rfl | rfl
    · rw [if_pos rfl, hPlus rfl]
    · rw [if_neg (by decide), hMinus rfl]
  · obtain ⟨rfl, hSize⟩ := hScaled
    rw [if_pos rfl, hScale hSize, hPlus rfl]
  · rename_i hNone hLeft hRight
    cases left <;> cases right <;> simp_all [ScalarType.isPointer]

theorem isFloat_commonType (h : (commonType op left right).isFloat = true) :
    left.isFloat = true ∨ right.isFloat = true := by
  unfold commonType largerType at h
  split at h
  · exact Or.inl h
  · split at h
    · exact Or.inl h
    · exact Or.inr h

theorem isFloat_binaryType (hMoves : movesPointer op left right = false) :
    (isArithmetic op = true ∨ isBitwise op = true →
      binaryType op left right = commonType op left right) ∧
    ((binaryType op left right).isFloat = true → (commonType op left right).isFloat = true) := by
  unfold binaryType
  rw [hMoves, if_neg Bool.false_ne_true]
  split
  · exact ⟨fun _ => rfl, id⟩
  · rename_i hNot
    refine ⟨fun h => absurd ?_ hNot, fun h => by cases h⟩
    rcases h with h | h <;> rw [h] <;> simp

theorem typedBinary_of_operation {a b : NumericConstant F}
    (hOperation : (if a.isFloat || b.isFloat || (binaryType op left right).isFloat then
        floatOperation doubles op (a.asDouble doubles) (b.asDouble doubles)
      else (wordOperation op a.intValue b.intValue).map (fromInt doubles)) = some c)
    (hLeft : OfType doubles left a) (hRight : OfType doubles right b)
    (hExact : OperatorExact doubles op left right a b)
    (hResult : OfType doubles (binaryType op left right) c) :
    typedBinary doubles op left right a.typed b.typed = some c.typed := by
  unfold OperatorExact at hExact
  unfold typedBinary
  cases hMoves : movesPointer op left right with
  | true =>
    rw [hMoves, if_pos rfl] at hExact
    obtain ⟨ha, hb, -⟩ := id hExact
    have hType : (binaryType op left right).isFloat = false := by
      rw [binaryType, hMoves, if_pos rfl]
      split
      · rfl
      · split
        · rename_i hPointer
          cases left <;> first | rfl | cases hPointer
        · rename_i hNotBoth hNotLeft
          have hPointer : right.isPointer = true := by
            have hEither : op ∈ ["+", "-"] ∧ (left.isPointer = true ∨ right.isPointer = true) := by
              simpa [movesPointer] using hMoves
            exact hEither.2.resolve_left hNotLeft
          cases right <;> first | rfl | cases hPointer
    rw [ha, hb, hType, Bool.or_self, Bool.or_self, if_neg Bool.false_ne_true] at hOperation
    obtain ⟨z, hWord, rfl⟩ := map_eq_some_iff.mp hOperation
    rw [typed_of_word ha, typed_of_word hb, typed_fromInt]
    dsimp only
    rw [movedPointer_of_wordOperation hMoves hExact hWord]
    rfl
  | false =>
    rw [hMoves, if_neg Bool.false_ne_true] at hExact
    rw [if_neg Bool.false_ne_true]
    have hArithmetic := isFloat_binaryType hMoves
    cases hLogical : isLogical op with
    | true =>
      have hOp : op = "&&" ∨ op = "||" := by simpa [isLogical] using hLogical
      -- the evaluation has no logical operators on doubles
      split at hOperation
      · rcases hOp with rfl | rfl <;> cases hOperation
      · rename_i hWords
        simp only [Bool.or_eq_true, not_or, Bool.not_eq_true] at hWords
        obtain ⟨z, hWord, rfl⟩ := map_eq_some_iff.mp hOperation
        rw [typed_of_word hWords.1.1, typed_of_word hWords.1.2, typed_fromInt]
        rcases hOp with rfl | rfl
        · rw [if_pos rfl, ← some.inj hWord]
          rfl
        · rw [if_neg (by decide), if_pos rfl, ← some.inj hWord]
          rfl
    | false =>
      have hAnd : ¬ op = "&&" := by rintro rfl; exact absurd hLogical (by decide)
      have hOr : ¬ op = "||" := by rintro rfl; exact absurd hLogical (by decide)
      rw [hLogical, if_neg Bool.false_ne_true] at hExact
      obtain ⟨hToLeft, hToRight, hWords, hValue, -⟩ := hExact
      rw [if_neg hAnd, if_neg hOr, toType_typed hToLeft, toType_typed hToRight]
      cases hType : (commonType op left right).isFloat with
      | true =>
        have hFloat : (a.isFloat || b.isFloat) = true := by
          rcases isFloat_commonType hType with h | h
          · rw [hLeft.isFloat_eq, h, Bool.true_or]
          · rw [hRight.isFloat_eq, h, Bool.or_true]
        rw [hFloat, Bool.true_or, if_pos rfl] at hOperation
        refine typedReals_follows hType c hOperation fun hOp => ?_
        rw [← hArithmetic.1 (Or.inl hOp)]
        exact hResult
      | false =>
        obtain ⟨ha, hb⟩ := hWords hType
        have hBinary : (binaryType op left right).isFloat = false := by
          rw [Bool.eq_false_iff]
          intro h
          rw [hArithmetic.2 h] at hType
          cases hType
        rw [ha, hb, hBinary, Bool.or_self, Bool.or_self, if_neg Bool.false_ne_true] at hOperation
        obtain ⟨z, hWord, rfl⟩ := map_eq_some_iff.mp hOperation
        rw [if_neg Bool.false_ne_true, if_neg Bool.false_ne_true, typed_fromInt]
        have hInt : ∀ {d : NumericConstant F}, d.isFloat = false →
            d.asInteger doubles = d.intValue := by
          intro d hd
          rw [NumericConstant.asInteger, hd]
          rfl
        have hTyped := typedWords_follows hLogical (fun hOp => hValue hOp hType) z hWord
          fun hOp => hArithmetic.1 hOp ▸ hResult.narrow hBinary
        dsimp only
        rw [hInt ha, hInt hb, hTyped]
        rfl

/-- The table, the types and the values go together where `good` says so. -/
def TableAgrees (doubles : Doubles F) (types : String → Option ScalarType)
    (table : String → Option (NumericConstant F)) (values : String → Option (TypedValue F))
    (good : String → Prop) : Prop :=
  ∀ name, good name → ∃ type c, types name = some type ∧ table name = some c ∧
    OfType doubles type c ∧ values name = some c.typed

/-- **The value under the types.** -/
theorem eval_typed {table : String → Option (NumericConstant F)}
    (hAgrees : TableAgrees doubles types table values good) (e : Initializer F)
    (hExact : Exact doubles types table good e)
    (hEval : evalNumericGlobalInitializer doubles types table e = some c) :
    OfType doubles (typeOf types e) c ∧ typedEval doubles types values e = some c.typed := by
  induction e generalizing c with
  | number value radix =>
    cases hEval
    exact ⟨⟨rfl, narrow_literal value radix⟩, rfl⟩
  | real value =>
    cases hEval
    exact ⟨⟨rfl, rfl⟩, rfl⟩
  | identifier name =>
    obtain ⟨type, d, hType, hTable, hOf, hValue⟩ := hAgrees name hExact
    obtain rfl := some.inj (hTable.symm.trans hEval)
    rw [typeOf, hType]
    exact ⟨hOf, hValue⟩
  | unary op operand ih =>
    obtain ⟨hOperand, hResult⟩ := hExact
    refine ⟨hResult c hEval, ?_⟩
    obtain ⟨d, hd, hOperation⟩ := bind_eq_some_iff.mp hEval
    obtain ⟨hOf, hTyped⟩ := ih hOperand hd
    rw [typedEval, hTyped, bind_some]
    exact typedUnary_of_unaryOperation hOperation hOf (hResult c hEval)
  | binary op left right ihLeft ihRight =>
    obtain ⟨hLeft, hRight, hOperator, hResult⟩ := hExact
    refine ⟨hResult c hEval, ?_⟩
    obtain ⟨a, ha, hRest⟩ := bind_eq_some_iff.mp hEval
    obtain ⟨b, hb, hOperation⟩ := bind_eq_some_iff.mp hRest
    obtain ⟨hOfLeft, hTypedLeft⟩ := ihLeft hLeft ha
    obtain ⟨hOfRight, hTypedRight⟩ := ihRight hRight hb
    rw [typedEval, hTypedLeft, hTypedRight, bind_some, bind_some]
    exact typedBinary_of_operation hOperation hOfLeft hOfRight (hOperator a b ha hb)
      (hResult c hEval)
  | cast target operand ih =>
    obtain ⟨hOperand, hConverts⟩ := hExact
    obtain ⟨d, hd, rfl⟩ := map_eq_some_iff.mp hEval
    have hTo := hConverts d hd
    rw [typedEval, (ih hOperand hd).2, map_some, toType_typed hTo]
    unfold ConvertsTo at hTo
    unfold OfType typeOf
    split at hTo
    · rename_i hTarget
      rw [if_pos hTarget, if_pos hTarget, if_pos hTarget]
      exact ⟨⟨rfl, hTo.1⟩, rfl⟩
    · rename_i hTarget
      rw [if_neg hTarget, if_neg hTarget, if_neg hTarget]
      exact ⟨⟨rfl, hTo⟩, rfl⟩
  | other => cases hEval

end Sound

-- ---
-- The table of constants
-- ---

/-- A `VarDeclaration` at the top level, and the type of its symbol. -/
structure GlobalDeclaration (F : Type) where
  name : String
  -- the type that is written, if there is one
  typeName : Option ScalarType
  type : ScalarType
  initializer : Option (Initializer F)
  isExtern : Bool
  typed : ∀ t, typeName = some t → t = type

/-- What the back end is given: the symbol table has every name once. -/
structure GlobalProgram (F : Type) where
  globals : List (GlobalDeclaration F)
  functions : List IRFunction
  names_nodup : (globals.map (·.name)).Nodup

/-- `BinaryGlobalConstEntry`, without its bits. -/
structure GlobalConstEntry (F : Type) where
  constant : NumericConstant F
  canInlineLoad : Bool

def looksWritten (name : String) (c : IRInstruction) : Bool :=
  c.dest == .symbol name || (c.op == .addressOf && c.lhs == .symbol name) ||
    (c.op == .store && c.dest == .symbol name)

/-- `code_generator_binary_global_is_written`. -/
def globalIsWritten (functions : List IRFunction) (name : String) : Bool :=
  functions.any fun f => f.instructions.any (looksWritten name)

section Table

variable (doubles : Doubles F) (types : String → Option ScalarType)

/-- `binary_global_const_table_get_numeric`. -/
def constTableGetNumeric (table : String → Option (GlobalConstEntry F)) (name : String) :
    Option (NumericConstant F) :=
  (table name).map (·.constant)

/-- `binary_global_const_bits`. -/
def globalConstBits (c : NumericConstant F) : Word :=
  if c.isFloat then doubles.bits c.floatValue else c.intValue

/-- `binary_global_const_table_get`. -/
def constTableGet (table : String → Option (GlobalConstEntry F)) (name : String) : Option Word :=
  (table name).bind fun entry =>
    if entry.canInlineLoad then some (globalConstBits doubles entry.constant) else none

/-- One declaration of `code_generator_binary_collect_global_constants`; a type that is not
written is taken for an `int64`. -/
def collectGlobalConstant (functions : List IRFunction)
    (table : String → Option (GlobalConstEntry F)) (d : GlobalDeclaration F) :
    String → Option (GlobalConstEntry F) :=
  if d.isExtern || !(d.typeName.getD (.integer .int64)).isSupported then table
  else
    match d.initializer.bind
      (evalNumericGlobalInitializer doubles types (constTableGetNumeric table)) with
    | some c => Function.update table d.name (some ⟨c, !globalIsWritten functions d.name⟩)
    | none => table

/-- The globals read as constants. -/
def collectGlobalConstants (functions : List IRFunction) (globals : List (GlobalDeclaration F)) :
    String → Option (GlobalConstEntry F) :=
  globals.foldl (collectGlobalConstant doubles types functions) fun _ => none

/-- `code_generator_emit_binary_global_variable`: the bytes of a scalar. -/
def emitGlobalVariable (table : String → Option (GlobalConstEntry F)) (d : GlobalDeclaration F) :
    Except String (List UInt8) :=
  if !d.type.isSupported then
    .error s!"Direct object backend only supports scalar integer/pointer/string/float64 global variables (encountered '{d.name}')"
  else
    match d.initializer with
    | none => .ok (List.replicate d.type.bytes 0)
    | some e =>
      match evalNumericGlobalInitializer doubles types (constTableGetNumeric table) e with
      | none =>
        .error s!"Direct object backend only supports constant numeric global initializers (encountered '{d.name}')"
      | some c =>
        if d.type = .float64 then .ok (leBytes 8 (doubles.bits (c.asDouble doubles)).toNat)
        else if d.type = .float32 then
          .ok (leBytes 4 (doubles.singleBits (c.asDouble doubles)).toNat)
        else if c.isFloat then
          .error s!"Direct object backend does not support floating global initializers for non-float globals (encountered '{d.name}')"
        else .ok (leBytes d.type.bytes c.intValue.toNat)

end Table

-- ---
-- What a read should give
-- ---

def ScalarType.load (type : ScalarType) (bytes : List UInt8) : Word :=
  type.narrow (BitVec.ofNat 64 (leNat bytes))

def MayChange (c : IRInstruction) (name : String) : Prop :=
  .symbol name ∈ c.writes ∨ (c.op = .addressOf ∧ c.lhs = .symbol name)

def WritesOperand (c : IRInstruction) (name : String) : Prop :=
  (c.op = .rotateAdd ∧ (c.lhs = .symbol name ∨ c.rhs = .symbol name)) ∨
    (c.op = .simdMinmaxI32 ∧ c.arguments.headD .none = .symbol name)

def HasSlot (input : FrameInput) (frame : FrameLayout) (name : String) : Prop :=
  name ∈ input.parameterNames ∨ ∃ place ∈ frame.locals, place.name = name

def DeclaresName (input : FrameInput) (name : String) : Prop :=
  name ∈ input.parameterNames ∨
    ∃ c ∈ input.instructions, c.op = .declareLocal ∧ c.dest = .symbol name

def ContextOf (input : FrameInput) (frame : FrameLayout) (context : BinaryFunctionContext) :
    Prop :=
  ∀ name, HasSlot input frame name →
    HasSlot input frame (context.aliasOf name) ∧ context.symbolOffset name ≠ none

section Reads

variable (doubles : Doubles F)

def TypedValue.encode (type : ScalarType) : TypedValue F → List UInt8
  | .word w => leBytes type.bytes w.toNat
  | .real value =>
    if type = .float32 then leBytes 4 (doubles.singleBits value).toNat
    else leBytes 8 (doubles.bits value).toNat

def GlobalProgram.types (program : GlobalProgram F) (name : String) : Option ScalarType :=
  (program.globals.find? (·.name = name)).map (·.type)

variable (program : GlobalProgram F)

def GlobalProgram.tableOf (globals : List (GlobalDeclaration F)) :
    String → Option (GlobalConstEntry F) :=
  collectGlobalConstants doubles program.types program.functions globals

def GlobalProgram.addValue (values : String → Option (TypedValue F)) (d : GlobalDeclaration F) :
    String → Option (TypedValue F) :=
  if d.isExtern then values
  else
    match d.initializer with
    | some e =>
      Function.update values d.name ((typedEval doubles program.types values e).map
          (toType doubles (typeOf program.types e) d.type))
    | none => values

def GlobalProgram.valuesOf (globals : List (GlobalDeclaration F)) :
    String → Option (TypedValue F) :=
  globals.foldl (program.addValue doubles) fun _ => none

def GlobalProgram.addExact (state : (String → Option (GlobalConstEntry F)) × (String → Prop))
    (d : GlobalDeclaration F) : (String → Option (GlobalConstEntry F)) × (String → Prop) :=
  (collectGlobalConstant doubles program.types program.functions state.1 d, fun name =>
    state.2 name ∨ (name = d.name ∧ d.isExtern = false ∧
      (d.typeName.getD (.integer .int64)).isSupported = true ∧
      ∃ e c, d.initializer = some e ∧
        Exact doubles program.types (constTableGetNumeric state.1) state.2 e ∧
        evalNumericGlobalInitializer doubles program.types (constTableGetNumeric state.1) e =
          some c ∧
        OfType doubles d.type c))

def GlobalProgram.exactOf (globals : List (GlobalDeclaration F)) : String → Prop :=
  (globals.foldl (program.addExact doubles) (fun _ => none, fun _ => False)).2

/-- Nothing in the initialiser depends on its types, and an integer for a float is the number that
it is at its type. -/
def GlobalProgram.InitializerExact (before : List (GlobalDeclaration F))
    (d : GlobalDeclaration F) (e : Initializer F) : Prop :=
  Exact doubles program.types (constTableGetNumeric (program.tableOf doubles before))
      (program.exactOf doubles before) e ∧
    ∀ w, typedEval doubles program.types (program.valuesOf doubles before) e = some (.word w) →
      d.type.isFloat = true → (typeOf program.types e).value w = w.toInt

def TypedValue.Fits (type : ScalarType) : TypedValue F → Prop
  | .word w =>
    if type = .float64 then doubles.bits (doubles.ofInt w.toInt) = w
    else if type = .float32 then (doubles.singleBits (doubles.ofInt w.toInt)).setWidth 64 = w
    else type.narrow w = w
  | .real value =>
    type = .float32 → (doubles.singleBits value).setWidth 64 = doubles.bits value

/-- Where the scan finds no write, the value of the initialiser fits the declared type, and there
is no write that it does not look for. -/
def GlobalProgram.InlineSafe (before : List (GlobalDeclaration F)) (d : GlobalDeclaration F)
    (e : Initializer F) : Prop :=
  globalIsWritten program.functions d.name = false →
    (∀ v, typedEval doubles program.types (program.valuesOf doubles before) e = some v →
      v.Fits doubles d.type) ∧
    ∀ f ∈ program.functions, ∀ c ∈ f.instructions, ¬ WritesOperand c d.name

structure GlobalProgram.ReadsSame (before : List (GlobalDeclaration F)) (d : GlobalDeclaration F)
    (e : Initializer F) (bytes : List UInt8) : Prop where
  emitted : ∃ v, typedEval doubles program.types (program.valuesOf doubles before) e = some v ∧
    bytes = (toType doubles (typeOf program.types e) d.type v).encode doubles d.type
  inlined : ∀ w, constTableGet doubles (program.tableOf doubles program.globals) d.name = some w →
    w = d.type.load bytes ∧ ∀ f ∈ program.functions, ∀ c ∈ f.instructions, ¬ MayChange c d.name
  hidden : ∀ input frame context, codeGeneratorBinaryPrepareFunctionContext input = .ok frame →
    ContextOf input frame context →
    context.constValue = constTableGet doubles (program.tableOf doubles program.globals) →
    DeclaresName input d.name → ∀ target, emitOperandLoadCode context (.symbol d.name) target =
        emitSymbolLoad context (context.aliasOf d.name) target

end Reads

-- ---
-- Words and bytes
-- ---

variable (type : ScalarType)

theorem ScalarType.bytes_cases :
    type.bytes = 1 ∨ type.bytes = 2 ∨ type.bytes = 4 ∨ type.bytes = 8 := by
  cases type with
  | integer type => cases type <;> simp [ScalarType.bytes, IntType.bytes]
  | _ => simp [ScalarType.bytes]

theorem narrow_congr {type : ScalarType} {w w' : Word}
    (h : w.toNat % 256 ^ type.bytes = w'.toNat % 256 ^ type.bytes) :
    type.narrow w = type.narrow w' := by
  apply BitVec.eq_of_toNat_eq
  unfold ScalarType.narrow
  have hPow : 256 ^ type.bytes = 2 ^ (8 * type.bytes) := by rw [pow_mul]; rfl
  rw [hPow] at h
  rcases type.bytes_cases with hBytes | hBytes | hBytes | hBytes <;> rw [hBytes] at h ⊢
  case inr.inr.inr =>
    rw [extendScalar_eight, extendScalar_eight]
    omega
  all_goals
    cases type.signed with
    | false => rw [toNat_extendScalar_unsigned (by decide), toNat_extendScalar_unsigned (by decide), h]
    | true => rw [toNat_extendScalar_signed (by decide), toNat_extendScalar_signed (by decide), h]

theorem toNat_narrow_mod (w : Word) :
    (type.narrow w).toNat % 256 ^ type.bytes = w.toNat % 256 ^ type.bytes := by
  unfold ScalarType.narrow
  rcases type.bytes_cases with hBytes | hBytes | hBytes | hBytes <;> rw [hBytes]
  case inr.inr.inr => rw [extendScalar_eight]
  all_goals
    cases type.signed with
    | false => rw [toNat_extendScalar_unsigned (by decide)]; omega
    | true => rw [toNat_extendScalar_signed (by decide)]; omega

theorem leBytes_narrow (w : Word) :
    leBytes type.bytes (type.narrow w).toNat = leBytes type.bytes w.toNat := by
  rw [← leBytes_mod, toNat_narrow_mod, leBytes_mod]

theorem load_leBytes (w : Word) : type.load (leBytes type.bytes w.toNat) = type.narrow w := by
  apply narrow_congr
  rw [leNat_leBytes, BitVec.toNat_ofNat]
  have hLt : w.toNat % 256 ^ type.bytes < 2 ^ 64 := (Nat.mod_le _ _).trans_lt w.isLt
  rw [Nat.mod_eq_of_lt hLt, Nat.mod_mod]

theorem load_single (bits : BitVec 32) :
    ScalarType.float32.load (leBytes 4 bits.toNat) = bits.setWidth 64 := by
  apply BitVec.eq_of_toNat_eq
  unfold ScalarType.load ScalarType.narrow
  rw [show ScalarType.float32.bytes = 4 from rfl, show ScalarType.float32.signed = false from rfl,
    toNat_extendScalar_unsigned (by decide), leNat_leBytes, BitVec.toNat_ofNat,
    BitVec.toNat_setWidth]
  omega

-- ---
-- The scan for writes
-- ---

variable {name : String}

variable {c : IRInstruction}

/-- **The scan for writes.** -/
theorem mayChange_seen (h : MayChange c name) :
    looksWritten name c = true ∨ WritesOperand c name := by
  by_cases hDest : c.dest = .symbol name
  · left
    simp [looksWritten, hDest]
  rcases h with hWrites | hAddress
  · right
    unfold IRInstruction.writes at hWrites
    split at hWrites
    · rename_i hOp
      simp only [mem_cons, not_mem_nil, or_false] at hWrites
      rcases hWrites with h | h | h
      · exact absurd h.symm hDest
      · exact Or.inl ⟨hOp, Or.inl h.symm⟩
      · exact Or.inl ⟨hOp, Or.inr h.symm⟩
    · rename_i hOp
      simp only [mem_cons, not_mem_nil, or_false] at hWrites
      rcases hWrites with h | h
      · exact absurd h.symm hDest
      · exact Or.inr ⟨hOp, h.symm⟩
    · split at hWrites
      · exact absurd (mem_singleton.mp hWrites).symm hDest
      · cases hWrites
  · left
    simp [looksWritten, hAddress.1, hAddress.2]

theorem WritesOperand.mayChange (h : WritesOperand c name) :
    MayChange c name := by
  left
  unfold IRInstruction.writes
  rcases h with ⟨hOp, hOperand⟩ | ⟨hOp, hOperand⟩
  · rw [hOp]
    rcases hOperand with h | h <;> simp [h]
  · rw [hOp, ← hOperand]
    exact mem_cons_of_mem _ (mem_singleton_self _)

variable {functions : List IRFunction}

theorem globalIsWritten_eq_false : globalIsWritten functions name = false ↔
      ∀ f ∈ functions, ∀ c ∈ f.instructions, looksWritten name c = false := by
  simp [globalIsWritten]

theorem mayChange_iff_of_not_written (h : globalIsWritten functions name = false) :
    (∀ f ∈ functions, ∀ c ∈ f.instructions, ¬ MayChange c name) ↔
      ∀ f ∈ functions, ∀ c ∈ f.instructions, ¬ WritesOperand c name := by
  rw [globalIsWritten_eq_false] at h
  constructor
  · intro hNone f hf c hc hWrites
    exact hNone f hf c hc hWrites.mayChange
  · intro hNone f hf c hc hChange
    rcases mayChange_seen hChange with hSeen | hOperand
    · rw [h f hf c hc] at hSeen
      cases hSeen
    · exact hNone f hf c hc hOperand

-- ---
-- Locals and parameters
-- ---

variable {input : FrameInput}

theorem declaredType_of_prepareLocals {homeSize : Int} {instructions : List IRInstruction}
    {state state' : LocalState} (h : prepareLocals input homeSize instructions state = .ok state')
    (hMem : c ∈ instructions) (hOp : c.op = .declareLocal) (hDest : c.dest = .symbol name) :
    ∃ type, declaredType input c = some type := by
  induction instructions generalizing state with
  | nil => cases hMem
  | cons first rest ih =>
    rw [prepareLocals] at h
    rcases mem_cons.mp hMem with rfl | hLater
    · rw [if_pos hOp, hDest] at h
      dsimp only at h
      split at h
      · cases h
      · split at h
        · cases h
        · rename_i type hType
          exact ⟨type, hType⟩
    · split at h
      · split at h
        · split at h
          · cases h
          · split at h
            · cases h
            · obtain ⟨middle, -, hRest⟩ := bind_eq_ok h
              exact ih hRest hLater
        · cases h
      · exact ih h hLater

variable {frame : FrameLayout}

theorem hasSlot_of_declares (hFrame : codeGeneratorBinaryPrepareFunctionContext input = .ok frame)
    (h : DeclaresName input name) : HasSlot input frame name := by
  rcases h with hParameter | ⟨c, hMem, hOp, hDest⟩
  · exact Or.inl hParameter
  · right
    obtain ⟨state, hPrepared⟩ := prepared_of_ok hFrame
    obtain ⟨type, hType⟩ : ∃ type, declaredType input c = some type := by
      unfold codeGeneratorBinaryPrepareFunctionContext at hFrame
      split at hFrame
      · cases hFrame
      · split at hFrame
        · cases hFrame
        · obtain ⟨state, hLocals, -⟩ := bind_eq_ok hFrame
          exact declaredType_of_prepareLocals hLocals hMem hOp hDest
    have hDeclared : (name, type) ∈ declarationsOf input input.instructions := by
      refine mem_filterMap.mpr ⟨c, hMem, ?_⟩
      rw [if_pos hOp, hDest]
      rw [hType]
      rfl
    obtain ⟨place, hPlace, hName⟩ := (declareAll_slots _ hPrepared.declare).2 _ hDeclared
    exact ⟨place, hPrepared.locals ▸ hPlace, hName⟩

theorem emitOperandLoad_of_hasSlot {context : BinaryFunctionContext}
    (hContext : ContextOf input frame context) (h : HasSlot input frame name) (target : GpRegister)
    :
    emitOperandLoadCode context (.symbol name) target =
      emitSymbolLoad context (context.aliasOf name) target := by
  have hOffset := (hContext _ (hContext name h).1).2
  unfold emitOperandLoadCode
  dsimp only
  split
  · rename_i hNone _
    exact absurd hNone hOffset
  · rfl

-- ---
-- The globals, one after the other
-- ---

variable {bytes : List UInt8} {e : Initializer F} {table : String → Option (GlobalConstEntry F)}

variable (before : List (GlobalDeclaration F))

variable (d : GlobalDeclaration F)

section Globals

variable {doubles : Doubles F}

variable {types : String → Option ScalarType}

theorem eval_congr {table table' : String → Option (NumericConstant F)}
    (hSame : ∀ name, good name → table' name = table name) (e : Initializer F)
    (hExact : Exact doubles types table good e) :
    evalNumericGlobalInitializer doubles types table' e =
      evalNumericGlobalInitializer doubles types table e := by
  induction e with
  | number | real | other => rfl
  | identifier name => exact hSame name hExact
  | unary op operand ih =>
    rw [evalNumericGlobalInitializer, evalNumericGlobalInitializer, ih hExact.1]
  | binary op left right ihLeft ihRight =>
    rw [evalNumericGlobalInitializer, evalNumericGlobalInitializer, ihLeft hExact.1,
      ihRight hExact.2.1]
  | cast target operand ih =>
    rw [evalNumericGlobalInitializer, evalNumericGlobalInitializer, ih hExact.1]

variable (program : GlobalProgram F)

theorem tableOf_concat : program.tableOf doubles (before ++ [d]) =
      collectGlobalConstant doubles program.types program.functions
        (program.tableOf doubles before) d := by
  unfold GlobalProgram.tableOf collectGlobalConstants
  rw [foldl_append]
  rfl

theorem valuesOf_concat : program.valuesOf doubles (before ++ [d]) =
      program.addValue doubles (program.valuesOf doubles before) d := by
  unfold GlobalProgram.valuesOf
  rw [foldl_append]
  rfl

theorem exact_fst (globals : List (GlobalDeclaration F)) :
    (globals.foldl (program.addExact doubles) (fun _ => none, fun _ => False)).1 =
      program.tableOf doubles globals := by
  induction globals using reverseRecOn with
  | nil => rfl
  | append_singleton before d ih =>
    rw [tableOf_concat, foldl_append, ← ih]
    rfl

theorem exactOf_concat : program.exactOf doubles (before ++ [d]) =
      (program.addExact doubles (program.tableOf doubles before, program.exactOf doubles before)
        d).2 := by
  unfold GlobalProgram.exactOf
  rw [foldl_append, ← exact_fst]
  rfl

theorem mem_of_exactOf {globals : List (GlobalDeclaration F)}
    (h : program.exactOf doubles globals name) : name ∈ globals.map (·.name) := by
  induction globals using reverseRecOn with
  | nil => exact h.elim
  | append_singleton before d ih =>
    rw [exactOf_concat] at h
    rw [map_append, mem_append]
    rcases h with hOld | ⟨rfl, -⟩
    · exact Or.inl (ih hOld)
    · exact Or.inr (mem_singleton_self _)

variable {d : GlobalDeclaration F}

theorem collectGlobalConstant_of_ne
    (h : name ≠ d.name) : collectGlobalConstant doubles types functions table d name = table name
    := by
  unfold collectGlobalConstant
  split
  · rfl
  · cases d.initializer.bind
      (evalNumericGlobalInitializer doubles types (constTableGetNumeric table)) with
    | none => rfl
    | some c => exact Function.update_of_ne h _ _

theorem addValue_of_ne
    (h : name ≠ d.name) : program.addValue doubles values d name = values name := by
  unfold GlobalProgram.addValue
  split
  · rfl
  · cases d.initializer with
    | none => rfl
    | some e => exact Function.update_of_ne h _ _

theorem tableOf_append_of_not_mem {before after : List (GlobalDeclaration F)}
    (h : name ∉ after.map (·.name)) :
    program.tableOf doubles (before ++ after) name = program.tableOf doubles before name := by
  induction after using reverseRecOn with
  | nil => rw [append_nil]
  | append_singleton after d ih =>
    rw [map_append, mem_append, not_or] at h
    rw [← append_assoc, tableOf_concat,
      collectGlobalConstant_of_ne (fun hName => h.2 (mem_singleton.mpr hName)), ih h.1]

theorem collectGlobalConstant_self {c : NumericConstant F} (hExtern : d.isExtern = false)
    (hSupported : (d.typeName.getD (.integer .int64)).isSupported = true)
    (hInitializer : d.initializer = some e)
    (hEval : evalNumericGlobalInitializer doubles types (constTableGetNumeric table) e = some c) :
    collectGlobalConstant doubles types functions table d d.name =
      some ⟨c, !globalIsWritten functions d.name⟩ := by
  unfold collectGlobalConstant
  rw [hExtern, hSupported, if_neg (by decide), hInitializer, bind_some, hEval]
  exact Function.update_self _ _ _

theorem types_of_mem {before after : List (GlobalDeclaration F)}
    (h : program.globals = before ++ d :: after) : program.types d.name = some d.type := by
  unfold GlobalProgram.types
  have hNodup := program.names_nodup
  rw [h, map_append, nodup_append] at hNodup
  have hNone : before.find? (·.name = d.name) = none := by
    rw [find?_eq_none]
    intro other hMem
    rw [decide_eq_true_eq]
    exact hNodup.2.2 _ (mem_map_of_mem hMem) _ (mem_map_of_mem mem_cons_self)
  rw [h, find?_append, hNone, none_or, find?_cons_of_pos (by simp)]
  rfl

theorem toType_of_ofType {source target : ScalarType} {c : NumericConstant F}
    (h : OfType doubles target c) : toType doubles source target c.typed = c.typed := by
  unfold OfType at h
  split at h
  · rename_i hTarget
    rw [typed_of_float h.1]
    unfold toType
    dsimp only
    rw [if_pos hTarget, h.2]
  · rename_i hTarget
    rw [typed_of_word h.1]
    unfold toType
    dsimp only
    rw [if_neg hTarget, h.2]

/-- **The table and the values.** -/
theorem agrees_before {before after : List (GlobalDeclaration F)}
    (h : program.globals = before ++ after) :
    TableAgrees doubles program.types (constTableGetNumeric (program.tableOf doubles before))
      (program.valuesOf doubles before) (program.exactOf doubles before) := by
  induction before using reverseRecOn generalizing after with
  | nil => exact fun _ hGood => hGood.elim
  | append_singleton before d ih =>
    rw [append_assoc, singleton_append] at h
    have hBefore := ih h
    have hFresh : d.name ∉ before.map (·.name) := by
      have hNodup := program.names_nodup
      rw [h, map_append, nodup_append] at hNodup
      intro hMem
      exact hNodup.2.2 _ hMem _ (mem_map_of_mem mem_cons_self) rfl
    intro name hGood
    rw [exactOf_concat] at hGood
    rw [tableOf_concat, valuesOf_concat]
    unfold constTableGetNumeric
    rcases hGood with hOld | ⟨rfl, hExtern, hSupported, e, c, hInitializer, hExact, hEval, hOf⟩
    · have hNe : name ≠ d.name := by
        rintro rfl
        exact hFresh (mem_of_exactOf program hOld)
      obtain ⟨type, c, hType, hTable, hOf, hValue⟩ := hBefore name hOld
      refine ⟨type, c, hType, ?_, hOf, ?_⟩
      · rw [collectGlobalConstant_of_ne hNe]
        exact hTable
      · rw [addValue_of_ne program hNe]
        exact hValue
    · refine ⟨d.type, c, types_of_mem program h, ?_, hOf, ?_⟩
      · rw [collectGlobalConstant_self hExtern hSupported hInitializer hEval]
        rfl
      · unfold GlobalProgram.addValue
        rw [hExtern, if_neg Bool.false_ne_true, hInitializer]
        dsimp only
        rw [Function.update_self, (eval_typed hBefore e hExact hEval).2, map_some,
          toType_of_ofType hOf]

-- ---
-- Inlined and loaded
-- ---

def EmittedAs (doubles : Doubles F) (type : ScalarType) (c : NumericConstant F)
    (bytes : List UInt8) : Prop :=
  if type = .float64 then bytes = leBytes 8 (doubles.bits (c.asDouble doubles)).toNat
  else if type = .float32 then bytes = leBytes 4 (doubles.singleBits (c.asDouble doubles)).toNat
  else c.isFloat = false ∧ bytes = leBytes type.bytes c.intValue.toNat

theorem emitGlobalVariable_ok (hInitializer : d.initializer = some e)
    (h : emitGlobalVariable doubles types table d = .ok bytes) :
    d.type.isSupported = true ∧ ∃ c,
      evalNumericGlobalInitializer doubles types (constTableGetNumeric table) e = some c ∧
        EmittedAs doubles d.type c bytes := by
  unfold emitGlobalVariable at h
  split at h
  · cases h
  · rename_i hSupported
    refine ⟨by simpa using hSupported, ?_⟩
    rw [hInitializer] at h
    dsimp only at h
    split at h
    · cases h
    · rename_i c hEval
      refine ⟨c, hEval, ?_⟩
      unfold EmittedAs
      split at h
      · rename_i hDouble
        rw [if_pos hDouble]
        exact (Except.ok.inj h).symm
      · rename_i hDouble
        rw [if_neg hDouble]
        split at h
        · rename_i hSingle
          rw [if_pos hSingle]
          exact (Except.ok.inj h).symm
        · rename_i hSingle
          rw [if_neg hSingle]
          split at h
          · cases h
          · rename_i hFloat
            exact ⟨by simpa using hFloat, (Except.ok.inj h).symm⟩

theorem isFloat_iff : type.isFloat = true ↔ type = .float64 ∨ type = .float32 := by
  cases type <;> simp [ScalarType.isFloat]

section

variable {type : ScalarType} {c : NumericConstant F} (h : EmittedAs doubles type c bytes)
include h

theorem EmittedAs.encode {source : ScalarType}
    (hValue : type.isFloat = true → c.isFloat = false → source.value c.intValue = c.intValue.toInt)
    :
    bytes = (toType doubles source type c.typed).encode doubles type := by
  -- a float of a float type, whatever the constant is
  have hReal : type.isFloat = true →
      toType doubles source type c.typed = .real (type.round doubles (c.asDouble doubles)) := by
    intro hType
    unfold toType NumericConstant.asDouble
    cases hFloat : c.isFloat with
    | true =>
      rw [typed_of_float hFloat]
      dsimp only
      rw [if_pos hType, if_pos rfl]
    | false =>
      rw [typed_of_word hFloat]
      dsimp only
      rw [if_pos hType, hValue hType hFloat, if_neg Bool.false_ne_true]
  unfold EmittedAs at h
  split at h
  · rename_i hDouble
    rw [hReal ((isFloat_iff type).mpr (Or.inl hDouble)), hDouble]
    exact h
  · rename_i hDouble
    split at h
    · rename_i hSingle
      rw [hReal ((isFloat_iff type).mpr (Or.inr hSingle)), hSingle, h]
      exact congrArg (fun bits => leBytes 4 (BitVec.toNat bits))
        (doubles.single_bits (c.asDouble doubles)).symm
    · rename_i hSingle
      have hType : ¬ type.isFloat = true := by
        rw [isFloat_iff]
        exact not_or.mpr ⟨hDouble, hSingle⟩
      unfold toType
      rw [typed_of_word h.1]
      dsimp only
      rw [if_neg hType]
      exact h.2.trans (leBytes_narrow type c.intValue).symm

theorem EmittedAs.inlined_iff :
    globalConstBits doubles c = type.load bytes ↔ c.typed.Fits doubles type := by
  have hLoad : ∀ w, ScalarType.float64.load (leBytes 8 (BitVec.toNat w)) = w := fun w =>
    (load_leBytes .float64 w).trans (narrow_eight rfl w)
  unfold EmittedAs at h
  unfold globalConstBits TypedValue.Fits
  cases hFloat : c.isFloat with
  | true =>
    have hDouble : c.asDouble doubles = c.floatValue := if_pos hFloat
    rw [hDouble] at h
    rw [typed_of_float hFloat, if_pos rfl]
    split at h
    · rename_i hType
      rw [h, hType, hLoad]
      simp
    · split at h
      · rename_i hType
        rw [h, hType, load_single, eq_comm]
        simp
      · rw [hFloat] at h
        cases h.1
  | false =>
    have hDouble : c.asDouble doubles = doubles.ofInt c.intValue.toInt := by
      rw [NumericConstant.asDouble, hFloat, if_neg Bool.false_ne_true]
    rw [hDouble] at h
    rw [typed_of_word hFloat, if_neg Bool.false_ne_true]
    dsimp only
    split at h
    · rename_i hType
      rw [if_pos hType, h, hType, hLoad, eq_comm]
    · rename_i hType
      rw [if_neg hType]
      split at h
      · rename_i hSingle
        rw [if_pos hSingle, h, hSingle, load_single, eq_comm]
      · rename_i hSingle
        rw [if_neg hSingle, h.2, load_leBytes, eq_comm]

end

end Globals

-- ---
-- Programs
-- ---

def wholeBits (bias mantissa sign : Nat) (n : Int) : Nat :=
  if n = 0 then 0
  else
    (if n < 0 then sign else 0) + (bias + n.natAbs.log2) * 2 ^ mantissa +
      (n.natAbs * 2 ^ (mantissa - n.natAbs.log2) - 2 ^ mantissa)

def wholeDoubles : Doubles Int where
  ofInt n := n
  toInt n := BitVec.ofInt 64 n
  neg x := -x
  add x y := x + y
  sub x y := x - y
  mul x y := x * y
  div x y := x / y
  eq x y := x == y
  lt x y := decide (x < y)
  le x y := decide (x ≤ y)
  bits n := BitVec.ofNat 64 (wholeBits 1023 52 (2 ^ 63) n)
  single n := n
  singleBits n := BitVec.ofNat 32 (wholeBits 127 23 (2 ^ 31) n)
  single_bits _ := rfl

def typedGlobal (name : String) (type : ScalarType) (e : Initializer Int) :
    GlobalDeclaration Int where
  name
  typeName := some type
  type
  initializer := some e
  isExtern := false
  typed := by
    rintro t h
    exact (Option.some.inj h).symm

def baseGlobal : GlobalDeclaration Int := typedGlobal "base" (.integer .int64) (.number 40 10)

def totalInitializer : Initializer Int := .binary "+" (.identifier "base") (.number 2 10)

def totalGlobal : GlobalDeclaration Int :=
  typedGlobal "total" (.integer .int32) totalInitializer

/-- `var base: int64 = 40; var total: int32 = base + 2;` -/
def totalProgram : GlobalProgram Int where
  globals := [baseGlobal, totalGlobal]
  functions := []
  names_nodup := by decide

def readOnlyProgram (d : GlobalDeclaration Int) : GlobalProgram Int where
  globals := [d]
  functions := []
  names_nodup := List.nodup_singleton _

def castInitializer : Initializer Int := .cast (.integer .int8) (.number 300 10)

/-- `var g: int64 = (int8)300;` -/
def castGlobal : GlobalDeclaration Int := typedGlobal "g" (.integer .int64) castInitializer

/-- `var g: uint8 = 300;` -/
def wideGlobal : GlobalDeclaration Int := typedGlobal "g" (.integer .uint8) (.number 300 10)

/-- `var g: float32 = 1.0;` -/
def singleGlobal : GlobalDeclaration Int := typedGlobal "g" .float32 (.real 1)

def lowGlobal : GlobalDeclaration Int := typedGlobal "low" (.integer .int64) (.number 0 10)

def highGlobal : GlobalDeclaration Int := typedGlobal "high" (.integer .int64) (.number 1 10)

/-- Two globals, and a function that does `next = low + high; low = high; high = next`. -/
def rotatingProgram : GlobalProgram Int where
  globals := [lowGlobal, highGlobal]
  functions := [
    { name := "step"
      parameterNames := []
      instructions := [
        { op := .rotateAdd, dest := .symbol "next", lhs := .symbol "low", rhs := .symbol "high",
          text := some "+" }] }]
  names_nodup := by decide

end Mettle.Codegen
