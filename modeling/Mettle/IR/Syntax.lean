import Mathlib.Data.List.Basic

/-!
# Mettle — the intermediate representation

The model of `ir/ir.h` and of the instruction classifiers of `ir/ir_optimize.c`. An
operand is an inductive value instead of a tagged record, a `double` is its 64-bit
pattern, and names are never `NULL`. Of the `ast_ref` back pointer only its presence is
kept, which is what the passes ask for; source locations are left out.
-/

namespace Mettle.IR

/-- Operands; a float keeps its bits. -/
inductive IROperand
  | none
  | temp (name : String)
  | symbol (name : String)
  | int (intValue : Int)
  | float (floatValue : BitVec 64) (floatBits : Nat)
  | string (name : String)
  | label (name : String)
  deriving DecidableEq

/-- The opcodes. -/
inductive IROpcode
  | nop
  | label
  | jump
  | branchZero
  | branchEq
  | declareLocal
  | assign
  | addressOf
  | load
  | store
  | binary
  | unary
  | rotateAdd
  | call
  | callIndirect
  | new
  | return_
  | inlineAsm
  | cast
  | countWordStarts
  | memcpyInline
  | simdSumI32
  | simdMatmulN32
  | simdInsertionSortI32
  | simdDotI32
  | simdScaleI32
  | simdClampI32
  | simdReverseCopyI32
  | lowerBoundI32
  | prefixSumI32
  | simdMinmaxI32
  deriving DecidableEq

/-- An instruction; unused operands are `none`. -/
structure IRInstruction where
  op : IROpcode
  dest : IROperand := .none
  lhs : IROperand := .none
  rhs : IROperand := .none
  text : Option String := Option.none
  arguments : List IROperand := []
  isFloat : Bool := false
  floatBits : Nat := 0
  -- set by the lowering of a string concatenation
  astRef : Bool := false
  deriving DecidableEq

def IRInstruction.floatWidth (instruction : IRInstruction) : Nat :=
  if instruction.isFloat then (if instruction.floatBits = 32 then 32 else 64) else 0

/-- A function of the IR. -/
structure IRFunction where
  name : String
  parameterNames : List String
  instructions : List IRInstruction
  -- in the order of the names; a type may be missing
  parameterTypes : List (Option String) := []
  deriving DecidableEq

/-! ## Comparing operands -/

/-- The pattern of a `double` that is not a number. -/
def doubleIsNan (bits : BitVec 64) : Bool :=
  (bits &&& 0x7FF0000000000000#64) == 0x7FF0000000000000#64 &&
    (bits &&& 0x000FFFFFFFFFFFFF#64) != 0#64

/-- `==` on `double`: a NaN equals nothing, and the two zeros are equal. -/
def doubleEq (a b : BitVec 64) : Bool :=
  !doubleIsNan a && !doubleIsNan b && (a == b || ((a <<< 1) == 0#64 && (b <<< 1) == 0#64))

/-- The equality of the optimizer. -/
def irOperandEquals : IROperand → IROperand → Bool
  | .none, .none => true
  | .int a, .int b => a == b
  -- the same value at another width is another operand
  | .float a aBits, .float b bBits => doubleEq a b && ((aBits == 32) == (bBits == 32))
  | .temp a, .temp b => a == b
  | .symbol a, .symbol b => a == b
  | .string a, .string b => a == b
  | .label a, .label b => a == b
  | _, _ => false

/-- The operators whose operands may be swapped. -/
def irBinaryOpIsCommutative (opText : String) : Bool :=
  opText == "+" || opText == "*" || opText == "&" || opText == "|" || opText == "^" ||
    opText == "==" || opText == "!="

/-! ## What an instruction writes, as the optimizer sees it -/

/-- Writes a temp. -/
def irInstructionWritesTemp (instruction : IRInstruction) : Bool :=
  match instruction.dest with
  | .temp _ =>
    match instruction.op with
    | .assign | .addressOf | .load | .binary | .unary | .rotateAdd | .call | .callIndirect
    | .new | .cast => true
    | _ => false
  | _ => false

/-- The opcodes of `ir_instruction_writes_symbol` and `ir_instruction_writes_destination`. -/
def IROpcode.writesDestination : IROpcode → Bool
  | .assign | .addressOf | .load | .binary | .unary | .rotateAdd | .call | .callIndirect | .new
  | .cast | .countWordStarts | .memcpyInline | .simdSumI32 | .simdMatmulN32
  | .simdInsertionSortI32 | .simdDotI32 | .simdScaleI32 | .simdClampI32 | .simdReverseCopyI32
  | .lowerBoundI32 | .prefixSumI32 | .simdMinmaxI32 => true
  | _ => false

/-- Writes a symbol. -/
def irInstructionWritesSymbol (instruction : IRInstruction) : Bool :=
  match instruction.dest with
  | .symbol _ => instruction.op.writesDestination
  | _ => false

/-- Writes its destination. -/
def irInstructionWritesDestination (instruction : IRInstruction) : Bool :=
  instruction.dest != .none && instruction.op.writesDestination

/-- A copy in the instruction's place. -/
def irRewriteToAssignOperand (instruction : IRInstruction) (value : IROperand) : IRInstruction :=
  { op := .assign
    dest := instruction.dest
    lhs := value
    rhs := .none
    text := Option.none
    arguments := []
    isFloat := match value with | .float _ _ => true | _ => false
    floatBits :=
      match value with
      | .float _ bits => if bits = 32 then 32 else 64
      | _ => instruction.floatBits }

end Mettle.IR
