import Mathlib.Tactic.Linarith
import Mathlib.Tactic.Ring
import Mettle.Codegen.ScalarAccess

/-!
# Mettle — integer operators

The code of `binary_emit_binary_integer` for an IR binary instruction, and of
`code_generator_binary_emit_compare_flags` for a comparison that is fused with what uses
it. All of it is 64-bit and signed, whatever the type of the operands is; only comparisons
look at the types, and take 32 bits of two four-byte operands.
-/

namespace Mettle.Codegen

open Mettle.IR Mettle.Lib Option

-- ---
-- Operators
-- ---

inductive IntegerOp
  | add | sub | mul | div | mod | shl | shr | and | or | xor | eq | ne | lt | le | gt | ge
  deriving DecidableEq

def IntegerOp.text : IntegerOp → String
  | .add => "+"
  | .sub => "-"
  | .mul => "*"
  | .div => "/"
  | .mod => "%"
  | .shl => "<<"
  | .shr => ">>"
  | .and => "&"
  | .or => "|"
  | .xor => "^"
  | .eq => "=="
  | .ne => "!="
  | .lt => "<"
  | .le => "<="
  | .gt => ">"
  | .ge => ">="

def IntType.valueOf (type : IntType) (w : BitVec (8 * type.bytes)) : Int :=
  if type.signed then w.toInt else w.toNat

def IntType.wrap (type : IntType) (x : Int) : Int :=
  type.valueOf (BitVec.ofInt (8 * type.bytes) x)

def IntType.apply (type : IntType) (op : IntegerOp) (a b : Int) : Int :=
  match op with
  | .add => type.wrap (a + b)
  | .sub => type.wrap (a - b)
  | .mul => type.wrap (a * b)
  | .div => type.wrap (a.tdiv b)
  | .mod => type.wrap (a.tmod b)
  | .shl => type.wrap (a * 2 ^ b.toNat)
  | .shr => type.wrap (a / 2 ^ b.toNat)
  | .and => type.valueOf (BitVec.ofInt _ a &&& BitVec.ofInt _ b)
  | .or => type.valueOf (BitVec.ofInt _ a ||| BitVec.ofInt _ b)
  | .xor => type.valueOf (BitVec.ofInt _ a ^^^ BitVec.ofInt _ b)
  | .eq => if a = b then 1 else 0
  | .ne => if a ≠ b then 1 else 0
  | .lt => if a < b then 1 else 0
  | .le => if a ≤ b then 1 else 0
  | .gt => if a > b then 1 else 0
  | .ge => if a ≥ b then 1 else 0

example : IntType.uint8.apply .add 255 1 = 0 ∧ IntType.int8.apply .shr (-2) 1 = -1 ∧
    IntType.uint8.apply .lt 1 255 = 1 := by decide

-- ---
-- The code with an immediate
-- ---

/-- `code_generator_binary_extract_positive_power_of_two`: the shift; the mask is one less
than the value. -/
def extractPositivePowerOfTwo (value : Int) : Option Nat :=
  if 0 < value ∧ value.toNat &&& (value.toNat - 1) = 0 then some value.toNat.log2 else none

/-- `code_generator_binary_emit_and_mask`. -/
def emitAndMask (target : GpRegister) (mask : Int) : List X86 :=
  if mask ≤ 0x7fffffff then [.aluImm .and target mask]
  else [.movImm .r10 (BitVec.ofInt 64 mask), .alu .and target .r10]

/-- The rounded quotient of `rax` by a power of two. -/
def emitPowerQuotient (shift : Nat) (mask : Int) : List X86 :=
  [.mov .rcx .rax, .shiftImm .sar .rcx 63] ++ emitAndMask .rcx mask ++
    [.alu .add .rax .rcx, .shiftImm .sar .rax shift]

def emitPowerOfTwo (op : String) (value : Int) (shift : Nat) : List X86 :=
  if op = "/" then if shift = 0 then [] else emitPowerQuotient shift (value - 1)
  else if shift = 0 then [.movImm .rax 0]
  else
    .mov .r11 .rax :: emitPowerQuotient shift (value - 1) ++
      [.shiftImm .shl .rax shift, .alu .sub .r11 .rax, .mov .rax .r11]

def isCommutative (op : String) : Bool :=
  op == "+" || op == "*" || op == "&" || op == "|" || op == "^" || op == "==" || op == "!="

def isOrdering (op : String) : Bool := op == "<" || op == "<=" || op == ">" || op == ">="

def immediateOperand (op : String) (lhs rhs : IROperand) : Option (IROperand × Int × Bool) :=
  let onRight :=
    if isCommutative op || op == "-" || op == "<<" || op == ">>" || isOrdering op then
      immediate32 rhs
    else none
  match onRight with
  | some immediate => some (lhs, immediate, true)
  | none =>
    (if isCommutative op then immediate32 lhs else none).map fun immediate =>
      (rhs, immediate, false)

def emitImmediateArithmetic (op : String) (immediate : Int) (onRight : Bool)
    (register : GpRegister) : Option (List X86) :=
  if op = "+" then some [.aluImm .add register immediate]
  else if op = "-" ∧ onRight then some [.aluImm .sub register immediate]
  else if op = "*" then some [.imulImm register register immediate]
  else if op = "&" then some [.aluImm .and register immediate]
  else if op = "|" then some [.aluImm .or register immediate]
  else if op = "^" then some [.aluImm .xor register immediate]
  else if (op = "<<" ∨ op = ">>") ∧ onRight ∧ 0 ≤ immediate ∧ immediate < 64 then
    some [.shiftImm (if op = "<<" then .shl else .sar) register immediate.toNat]
  else none

/-- Comparisons, which need `rax`. -/
def emitImmediateCompare (op : String) (immediate : Int) (onRight : Bool) : Option (List X86) :=
  if op = "==" ∨ op = "!=" ∨ (onRight ∧ isOrdering op) then
    (compareSetcc op).map fun setcc => [.cmpImm .rax immediate, .setccAl setcc, .movzxEaxAl]
  else none

-- ---
-- The code with two registers
-- ---

/-- The operators on `rax` and `r10`. -/
def emitRegisterOp (op : String) (width : Nat) : Option (List X86) :=
  if op = "+" then some [.leaScaled .rax .rax .r10 1]
  else if op = "-" then some [.alu .sub .rax .r10]
  else if op = "*" then some [.imul .rax .r10]
  else if op = "/" then some [.cqo, .idiv .r10]
  else if op = "%" then some [.cqo, .idiv .r10, .mov .rax .rdx]
  else if op = "&" then some [.alu .and .rax .r10]
  else if op = "|" then some [.alu .or .rax .r10]
  else if op = "^" then some [.alu .xor .rax .r10]
  else if op = "<<" then some [.mov .rcx .r10, .shiftCl .shl .rax]
  else if op = ">>" then some [.mov .rcx .r10, .shiftCl .sar .rax]
  else if op = "&&" then
    some [.alu .and .rax .r10, .testReg .rax, .setccAl 0x95, .movzxEaxAl]
  else if op = "||" then
    some [.alu .or .rax .r10, .testReg .rax, .setccAl 0x95, .movzxEaxAl]
  else (compareSetcc op).map fun setcc => [.cmp width .rax .r10, .setccAl setcc, .movzxEaxAl]

/-- The types that comparisons look at: of the global of that name, or else of the local. -/
structure IntegerContext extends BinaryFunctionContext where
  declaredType : String → Option IntType

instance : Coe IntegerContext BinaryFunctionContext := ⟨(·.toBinaryFunctionContext)⟩

variable (context : IntegerContext)

/-- `code_generator_binary_get_operand_type_in_context`. -/
def operandType : IROperand → Option IntType
  | .symbol name => (context.symbolType name).or (context.declaredType name)
  | _ => none

/-- `code_generator_binary_instruction_compare_width`; integer instructions have no `ast_ref`. -/
def compareWidth (lhs rhs : IROperand) : Nat :=
  match operandType context lhs, operandType context rhs with
  | some lhsType, some rhsType =>
    if lhsType.bytes = rhsType.bytes ∧ lhsType.bytes = 4 then 4 else 8
  | _, _ => 8

def emitGeneral (op : String) (instruction : IRInstruction) : Option (List X86) := do
  let rhsCode ← emitOperandLoadCode context.toBinaryFunctionContext instruction.rhs .r10
  let lhsCode ← emitOperandLoadCode context.toBinaryFunctionContext instruction.lhs .rax
  let opCode ← emitRegisterOp op (compareWidth context instruction.lhs instruction.rhs)
  let storeCode ← emitDestinationStoreCode context.toBinaryFunctionContext instruction.dest .rax
  return rhsCode ++ lhsCode ++ opCode ++ storeCode

def emitWithImmediate (op : String) (instruction : IRInstruction) (value : IROperand)
    (immediate : Int) (onRight : Bool) : Option (List X86) :=
  match emitImmediateArithmetic op immediate onRight .rax,
      operandRegister context.toBinaryFunctionContext instruction.dest with
  | some _, some register => do
    let loadCode ← emitOperandLoadCode context.toBinaryFunctionContext value register
    let opCode ← emitImmediateArithmetic op immediate onRight register
    return loadCode ++ opCode
  | arithmetic, _ => do
    let opCode ← arithmetic.or (emitImmediateCompare op immediate onRight)
    let loadCode ← emitOperandLoadCode context.toBinaryFunctionContext value .rax
    let storeCode ← emitDestinationStoreCode context.toBinaryFunctionContext instruction.dest .rax
    return loadCode ++ opCode ++ storeCode

def usableImmediate (op : String) (instruction : IRInstruction) : Option (IROperand × Int × Bool) :=
  (immediateOperand op instruction.lhs instruction.rhs).filter fun (_, immediate, onRight) =>
    (emitImmediateArithmetic op immediate onRight .rax).isSome ||
      (emitImmediateCompare op immediate onRight).isSome

def powerOfTwoDivisor (op : String) : IROperand → Option (Int × Nat)
  | .int value =>
    if op = "/" ∨ op = "%" then (extractPositivePowerOfTwo value).map (value, ·) else none
  | _ => none

/-- `binary_emit_binary_integer`. -/
def emitBinaryInteger (instruction : IRInstruction) : Option (List X86) :=
  match instruction.text with
  | none => none
  | some op =>
    match powerOfTwoDivisor op instruction.rhs with
    | some (value, shift) => do
      let loadCode ← emitOperandLoadCode context.toBinaryFunctionContext instruction.lhs .rax
      let storeCode ← emitDestinationStoreCode context.toBinaryFunctionContext instruction.dest .rax
      return loadCode ++ emitPowerOfTwo op value shift ++ storeCode
    | none =>
      match usableImmediate op instruction with
      | some (value, immediate, onRight) =>
        emitWithImmediate context op instruction value immediate onRight
      | none => emitGeneral context op instruction

/-- `code_generator_binary_emit_compare_flags`. -/
def emitCompareFlagsCode (compare : IRInstruction) : Option (List X86) :=
  if !isCompareOperator compare.text then none
  else match immediate32 compare.rhs,
      (if isEquality compare.text then immediate32 compare.lhs else none) with
  | some immediate, _ =>
    (emitOperandIn context.toBinaryFunctionContext compare.lhs .rax).map fun (register, code) =>
      code ++ [.cmpImm register immediate]
  | none, some immediate =>
    (emitOperandIn context.toBinaryFunctionContext compare.rhs .rax).map fun (register, code) =>
      code ++ [.cmpImm register immediate]
  | none, none => do
    let (rhs, rhsCode) ← emitOperandIn context.toBinaryFunctionContext compare.rhs .r10
    let (lhs, lhsCode) ← emitOperandIn context.toBinaryFunctionContext compare.lhs .rax
    return rhsCode ++ lhsCode ++ [.cmp (compareWidth context compare.lhs compare.rhs) lhs rhs]

/-- `code_generator_binary_compare_false_jcc`. -/
def compareFalseJcc (op : String) : Option Nat :=
  if op = "==" then some 0x85
  else if op = "!=" then some 0x84
  else if op = "<" then some 0x8D
  else if op = "<=" then some 0x8F
  else if op = ">" then some 0x8E
  else if op = ">=" then some 0x8C
  else none

-- ---
-- What the code computes
-- ---

/-- The word that the operator leaves in `rax`; `none` if it traps. -/
def resultWord (op : IntegerOp) (width : Nat) (x y : Word) : Option Word :=
  match op with
  | .add => some (x + y)
  | .sub => some (x - y)
  | .mul => some (x * y)
  | .div => (idivWord (if x.msb then -1 else 0) x y).map Prod.fst
  | .mod => (idivWord (if x.msb then -1 else 0) x y).map Prod.snd
  | .shl => some (ShiftOp.shl.apply x (y.toNat % 256))
  | .shr => some (ShiftOp.sar.apply x (y.toNat % 256))
  | .and => some (x &&& y)
  | .or => some (x ||| y)
  | .xor => some (x ^^^ y)
  | op => (compareSetcc op.text).map fun setcc =>
      if conditionHolds setcc (emitRegRegCompare x y width) then 1 else 0

variable {code : List X86} {state : X86State}

section Computing

variable {globalAddress : String → Word}

theorem setcc_movzx (w : Word) (holds : Bool) :
    extendScalar 1 false ((w &&& ~~~0xFF#64) ||| (if holds then 1 else 0)) =
      if holds then 1 else 0 := by
  cases holds <;> simp [extendScalar, BitVec.setWidth_or]

theorem emitRegisterOp_executes (state : X86State) (op : IntegerOp) (width : Nat)
    (hCode : emitRegisterOp op.text width = some code) :
    (executeCode globalAddress state code).map (·.registers .rax) =
      resultWord op width (state.registers .rax) (state.registers .r10) := by
  -- the comparisons share their last two instructions
  have hCompare : ∀ setcc, ((executeCode globalAddress state
      [.cmp width .rax .r10, .setccAl setcc, .movzxEaxAl]).map (·.registers .rax)) =
      some (if conditionHolds setcc (emitRegRegCompare (state.registers .rax)
        (state.registers .r10) width) then 1 else 0) := by
    intro setcc
    simp only [executeCode_cons, X86.execute, bind_some, map_some, executeCode_nil, registers_set]
    rw [setcc_movzx]
  cases op
  case div | mod =>
    cases hCode
    simp only [executeCode_cons, X86.execute, bind_some, executeCode_nil, registers_set,
      registers_set_of_ne (show GpRegister.rax ≠ .rdx by decide),
      registers_set_of_ne (show GpRegister.r10 ≠ .rdx by decide), resultWord]
    cases idivWord _ _ _ with
    | none => rfl
    | some result => simp [registers_set_of_ne (show GpRegister.rax ≠ .rdx by decide)]
  case add =>
    cases hCode
    simp [X86.execute, resultWord]
  case shl =>
    cases hCode
    simp [X86.execute, resultWord, registers_set_of_ne (show GpRegister.rax ≠ .rcx by decide)]
  case shr =>
    cases hCode
    simp [X86.execute, resultWord, registers_set_of_ne (show GpRegister.rax ≠ .rcx by decide)]
  case eq => cases hCode; exact hCompare 0x94
  case ne => cases hCode; exact hCompare 0x95
  case lt => cases hCode; exact hCompare 0x9C
  case le => cases hCode; exact hCompare 0x9E
  case gt => cases hCode; exact hCompare 0x9F
  case ge => cases hCode; exact hCompare 0x9D
  all_goals
    cases hCode
    simp only [executeCode_cons, X86.execute, bind_some, executeCode_nil, map_some, resultWord]
    exact congrArg some (registers_set _ _)

end Computing

-- ---
-- When it is the result on the type
-- ---

def signedAt (width : Nat) (a : Int) : Int :=
  (a + 2 ^ (8 * width - 1)) % 2 ^ (8 * width) - 2 ^ (8 * width - 1)

/-- A word may leave the range of its type unless the type has eight bytes. -/
def IntType.Keeps (type : IntType) (x : Int) : Prop := type.bytes = 8 ∨ type.InRange x

/-- The signed quotient of two unsigned words is the unsigned one. -/
def QuotientAgrees (a b : Int) : Prop :=
  (a < 2 ^ 63 ∧ b < 2 ^ 63) ∨ (a < 2 ^ 63 ∧ 2 ^ 63 ≤ b ∧ a + b < 2 ^ 64) ∨
    (2 ^ 63 ≤ a ∧ (b = 1 ∨ b = a))

/-- The signed remainder of two unsigned words is the unsigned one. -/
def RemainderAgrees (a b : Int) : Prop :=
  (a < 2 ^ 63 ∧ b < 2 ^ 63) ∨ (a < 2 ^ 63 ∧ 2 ^ 63 ≤ b ∧ a + b < 2 ^ 64) ∨
    (2 ^ 63 ≤ a ∧ (b = a ∨ (b < 2 ^ 63 ∧ a % b = 0 ∧ 2 ^ 64 % b = 0)))

/-- The code compares signed words, of four bytes for the types of four bytes. -/
def IntType.SameHalf (type : IntType) (a b : Int) : Prop :=
  type.signed = false → 4 ≤ type.bytes →
    (a < 2 ^ (8 * type.bytes - 1) ↔ b < 2 ^ (8 * type.bytes - 1))

/-- When the code for the operator gives the result on the type. -/
def Agrees (type : IntType) (op : IntegerOp) (a b : Int) : Prop :=
  match op with
  | .add => type.Keeps (a + b)
  | .sub => type.Keeps (a - b)
  | .mul => type.Keeps (a * b)
  | .shl => type.Keeps (a * 2 ^ b.toNat)
  | .div =>
    if type = .uint64 then QuotientAgrees a b
    else ¬ (type.signed = true ∧ a = -2 ^ (8 * type.bytes - 1) ∧ b = -1)
  | .mod =>
    if type = .uint64 then RemainderAgrees a b else ¬ (type = .int64 ∧ a = -2 ^ 63 ∧ b = -1)
  | .shr => type = .uint64 → a < 2 ^ 63 ∨ b = 0
  | .and | .or | .xor | .eq | .ne => True
  | .lt | .le | .gt | .ge => type.SameHalf a b

variable {op : IntegerOp} {type : IntType}

section Comparing

variable {width : Nat} {a b : Int}

theorem toInt_wordOf (a : Int) : (wordOf a).toInt = signedAt 8 a := by
  have hNat := toNat_wordOf a
  rw [BitVec.toInt_eq_toNat_cond, signedAt]
  split <;> omega

theorem toInt_wordOf_low (a : Int) : ((wordOf a).setWidth 32).toInt = signedAt 4 a := by
  have hNat := toNat_wordOf a
  rw [BitVec.toInt_eq_toNat_cond, BitVec.toNat_setWidth, signedAt]
  split <;> omega

/-- The number that a word of an integer stands for. -/
theorem numberAt_wordOf (hWidth : width = 4 ∨ width = 8) (a : Int) :
    numberAt width (wordOf a) = signedAt width a := by
  rcases hWidth with rfl | rfl
  · exact toInt_wordOf_low a
  · exact toInt_wordOf a

def IntType.compareWidth (type : IntType) : Nat := if type.bytes = 4 then 4 else 8

theorem IntType.compareWidth_cases (type : IntType) :
    type.compareWidth = 4 ∨ type.compareWidth = 8 := by
  cases type <;> decide

theorem signedAt_eq_iff (ha : type.InRange a) (hb : type.InRange b) :
    signedAt type.compareWidth a = signedAt type.compareWidth b ↔ a = b := by
  rw [inRange_iff] at ha hb
  unfold signedAt IntType.compareWidth
  cases type <;>
    simp only [IntType.bytes, IntType.signed, if_true, Bool.false_eq_true, if_false,
      Nat.reduceEqDiff] at * <;>
    omega

theorem signedAt_order_iff (ha : type.InRange a) (hb : type.InRange b) :
    ((signedAt type.compareWidth a < signedAt type.compareWidth b ↔ a < b) ↔ type.SameHalf a b) ∧
      ((signedAt type.compareWidth a ≤ signedAt type.compareWidth b ↔ a ≤ b) ↔
        type.SameHalf a b) := by
  rw [inRange_iff] at ha hb
  unfold signedAt IntType.compareWidth IntType.SameHalf
  cases type <;>
    simp only [IntType.bytes, IntType.signed, if_true, Bool.false_eq_true, if_false,
      Bool.true_eq_false, Nat.reduceEqDiff, Nat.reduceLeDiff, false_implies, true_implies,
      iff_true, implies_true] at * <;>
    omega

theorem compare_conditions (hWidth : width = 4 ∨ width = 8) (a b : Int) :
    Conditions (emitRegRegCompare (wordOf a) (wordOf b) width)
      (signedAt width a = signedAt width b) (signedAt width a < signedAt width b) := by
  have hNumbers := regRegCompare_conditions width (wordOf a) (wordOf b)
  rwa [numberAt_wordOf hWidth, numberAt_wordOf hWidth] at hNumbers

def IntegerOp.holds : IntegerOp → Int → Int → Bool
  | .eq, a, b => decide (a = b)
  | .ne, a, b => decide (¬ a = b)
  | .lt, a, b => decide (a < b)
  | .le, a, b => decide (a < b ∨ a = b)
  | .gt, a, b => decide (¬ (a < b ∨ a = b))
  | .ge, a, b => decide (¬ a < b)
  | _, _, _ => false

def IntegerOp.isCompare : IntegerOp → Bool
  | .eq | .ne | .lt | .le | .gt | .ge => true
  | _ => false

theorem apply_compare (hOp : op.isCompare = true) (a b : Int) :
    type.apply op a b = if op.holds a b then 1 else 0 := by
  have hLe : (a < b ∨ a = b) ↔ a ≤ b := Int.le_iff_lt_or_eq.symm
  cases op
  case eq | ne | lt | le | gt | ge =>
    simp [IntType.apply, IntegerOp.holds, hLe]
  all_goals nomatch hOp

theorem holds_iff (ha : type.InRange a) (hb : type.InRange b) (hOp : op.isCompare = true) :
    op.holds (signedAt type.compareWidth a) (signedAt type.compareWidth b) = op.holds a b ↔
      Agrees type op a b := by
  have hEq := signedAt_eq_iff ha hb
  obtain ⟨hLt, hLe⟩ := signedAt_order_iff ha hb
  rw [Bool.eq_iff_iff]
  cases op <;>
    simp only [IntegerOp.holds, decide_eq_true_eq, ← Int.le_iff_lt_or_eq, not_iff_not]
  case eq | ne => exact iff_of_true hEq trivial
  case lt | ge => exact hLt
  case le | gt => exact hLe
  all_goals nomatch hOp

/-- The flags answer the comparison, for `setcc` and `cmovcc`, and the other way round for the
jump of a fused branch. -/
theorem compare_answers (hWidth : width = 4 ∨ width = 8) (hOp : op.isCompare = true) (a b : Int) :
    ∃ setcc jcc cmov, compareSetcc op.text = some setcc ∧ compareFalseJcc op.text = some jcc ∧
      compareTrueCmov op.text = some cmov ∧
      conditionHolds setcc (emitRegRegCompare (wordOf a) (wordOf b) width) =
        op.holds (signedAt width a) (signedAt width b) ∧
      conditionHolds jcc (emitRegRegCompare (wordOf a) (wordOf b) width) =
        !op.holds (signedAt width a) (signedAt width b) ∧
      conditionHolds cmov (emitRegRegCompare (wordOf a) (wordOf b) width) =
        op.holds (signedAt width a) (signedAt width b) := by
  obtain ⟨hEqual, hNotEqual, hLess, hNotLess, hLessEqual, hGreater⟩ :=
    compare_conditions hWidth a b
  have hNot : ∀ P : Prop, [Decidable P] → decide (¬ P) = !decide P := fun P _ => decide_not
  cases op
  case eq =>
    exact ⟨0x94, 0x85, 0x44, rfl, rfl, rfl, hEqual, hNotEqual.trans (hNot _), hEqual⟩
  case ne =>
    refine ⟨0x95, 0x84, 0x45, rfl, rfl, rfl, hNotEqual, hEqual.trans ?_, hNotEqual⟩
    rw [IntegerOp.holds, hNot, Bool.not_not]
  case lt =>
    exact ⟨0x9C, 0x8D, 0x4C, rfl, rfl, rfl, hLess, hNotLess.trans (hNot _), hLess⟩
  case le =>
    exact ⟨0x9E, 0x8F, 0x4E, rfl, rfl, rfl, hLessEqual, hGreater.trans (hNot _), hLessEqual⟩
  case gt =>
    refine ⟨0x9F, 0x8E, 0x4F, rfl, rfl, rfl, hGreater, hLessEqual.trans ?_, hGreater⟩
    rw [IntegerOp.holds, hNot, Bool.not_not]
  case ge =>
    refine ⟨0x9D, 0x8C, 0x4D, rfl, rfl, rfl, hNotLess, hLess.trans ?_, hNotLess⟩
    rw [IntegerOp.holds, hNot, Bool.not_not]
  all_goals nomatch hOp

theorem compare_iff (ha : type.InRange a) (hb : type.InRange b) (hOp : op.isCompare = true) :
    resultWord op type.compareWidth (wordOf a) (wordOf b) = some (wordOf (type.apply op a b)) ↔
      Agrees type op a b := by
  obtain ⟨setcc, jcc, cmov, hSetcc, -, -, hHolds, -, -⟩ :=
    compare_answers type.compareWidth_cases hOp a b
  have hResult : resultWord op type.compareWidth (wordOf a) (wordOf b) =
      some (if op.holds (signedAt type.compareWidth a) (signedAt type.compareWidth b) then 1
        else 0) := by
    have hMap : resultWord op type.compareWidth (wordOf a) (wordOf b) =
        (compareSetcc op.text).map fun setcc =>
          if conditionHolds setcc (emitRegRegCompare (wordOf a) (wordOf b) type.compareWidth)
          then 1 else 0 := by
      cases op <;> first | rfl | nomatch hOp
    rw [hMap, hSetcc, map_some, hHolds]
  rw [hResult, some.injEq, apply_compare hOp, ← holds_iff ha hb hOp]
  cases op.holds (signedAt type.compareWidth a) (signedAt type.compareWidth b) <;>
    cases op.holds a b <;> simp [wordOf]

end Comparing

section Arithmetic

variable {width : Nat} {a b : Int}

theorem wordOf_eq_iff (x y : Int) : wordOf x = wordOf y ↔ x % 2 ^ 64 = y % 2 ^ 64 := by
  rw [← BitVec.toNat_inj, toNat_wordOf, toNat_wordOf]
  omega

theorem wordOf_toInt (w : Word) : wordOf w.toInt = w := BitVec.ofInt_toInt

theorem wrap_eq (type : IntType) (x : Int) :
    type.wrap x = if type.signed then signedAt type.bytes x else x % 2 ^ (8 * type.bytes) := by
  unfold IntType.wrap IntType.valueOf signedAt
  cases type <;>
    simp only [IntType.bytes, IntType.signed, if_true, Bool.false_eq_true, if_false, Nat.reduceMul,
      BitVec.toNat_ofInt, BitVec.toInt_eq_toNat_cond] <;>
    omega

theorem wordOf_wrap_iff {x : Int} (hLow : type.bytes = 8 ∨ -2 ^ 63 ≤ x)
    (hHigh : type.bytes = 8 ∨ x < 2 ^ 64 ∧ (type.signed = true → x < 2 ^ 63)) :
    wordOf x = wordOf (type.wrap x) ↔ type.Keeps x := by
  rw [wordOf_eq_iff, wrap_eq]
  unfold IntType.Keeps signedAt
  rw [inRange_iff]
  cases type <;>
    simp only [IntType.bytes, IntType.signed, if_true, Bool.false_eq_true, if_false,
      Nat.reduceEqDiff, true_or, false_or, true_implies, false_implies, and_true, iff_true] at * <;>
    omega

theorem wrap_of_inRange {x : Int} (hx : type.InRange x) : type.wrap x = x := by
  rw [wrap_eq]
  unfold signedAt
  rw [inRange_iff] at hx
  cases type <;>
    simp only [IntType.bytes, IntType.signed, if_true, Bool.false_eq_true, if_false] at * <;>
    omega

theorem signedAt_eight (ha : type.InRange a) :
    signedAt 8 a = if type = .uint64 ∧ 2 ^ 63 ≤ a then a - 2 ^ 64 else a := by
  unfold signedAt
  rw [inRange_iff] at ha
  cases type <;>
    simp only [IntType.bytes, IntType.signed, if_true, Bool.false_eq_true, if_false,
      reduceCtorEq, false_and, true_and] at * <;>
    omega

theorem natAbs_le (hBytes : type.bytes ≠ 8) (ha : type.InRange a) :
    a.natAbs ≤ if type.signed then 2 ^ 31 else 2 ^ 32 - 1 := by
  rw [inRange_iff] at ha
  cases type <;>
    simp only [IntType.bytes, IntType.signed, if_true, Bool.false_eq_true, if_false,
      ne_eq, not_true_eq_false] at * <;>
    omega

theorem natAbs_le_pow (hBytes : type.bytes ≠ 8) (ha : type.InRange a) : a.natAbs ≤ 2 ^ 32 := by
  have h := natAbs_le hBytes ha
  split at h <;> omega

theorem wordOf_wrap_of_natAbs {x : Int} (h : type.bytes ≠ 8 → x.natAbs ≤ 2 ^ 33) :
    wordOf x = wordOf (type.wrap x) ↔ type.Keeps x := by
  by_cases hBytes : type.bytes = 8
  · exact wordOf_wrap_iff (Or.inl hBytes) (Or.inl hBytes)
  · have := h hBytes
    exact wordOf_wrap_iff (Or.inr (by omega)) (Or.inr ⟨by omega, fun _ => by omega⟩)

theorem add_iff (ha : type.InRange a) (hb : type.InRange b) :
    wordOf a + wordOf b = wordOf (type.wrap (a + b)) ↔ type.Keeps (a + b) := by
  have hSum : wordOf a + wordOf b = wordOf (a + b) := (BitVec.ofInt_add a b).symm
  rw [hSum]
  refine wordOf_wrap_of_natAbs fun hBytes => ?_
  have hA := natAbs_le_pow hBytes ha
  have hB := natAbs_le_pow hBytes hb
  omega

theorem sub_iff (ha : type.InRange a) (hb : type.InRange b) :
    wordOf a - wordOf b = wordOf (type.wrap (a - b)) ↔ type.Keeps (a - b) := by
  have hDifference : wordOf a - wordOf b = wordOf (a - b) := by
    rw [BitVec.sub_eq_add_neg, Int.sub_eq_add_neg]
    show BitVec.ofInt 64 a + -BitVec.ofInt 64 b = BitVec.ofInt 64 (a + -b)
    rw [BitVec.ofInt_add, BitVec.ofInt_neg]
  rw [hDifference]
  refine wordOf_wrap_of_natAbs fun hBytes => ?_
  have hA := natAbs_le_pow hBytes ha
  have hB := natAbs_le_pow hBytes hb
  omega

theorem wordOf_wrap_mul_iff (hFactors : type.bytes ≠ 8 →
      0 ≤ b ∧ type.signed = false ∨ type.signed = true)
    (ha : type.InRange a)
    (hb : type.bytes ≠ 8 → b.natAbs ≤ if type.signed then 2 ^ 31 else 2 ^ 32 - 1) :
    wordOf (a * b) = wordOf (type.wrap (a * b)) ↔ type.Keeps (a * b) := by
  by_cases hBytes : type.bytes = 8
  · exact wordOf_wrap_iff (Or.inl hBytes) (Or.inl hBytes)
  have hProduct : (a * b).natAbs ≤
      (if type.signed then 2 ^ 31 else 2 ^ 32 - 1) * (if type.signed then 2 ^ 31 else 2 ^ 32 - 1) := by
    rw [Int.natAbs_mul]
    exact Nat.mul_le_mul (natAbs_le hBytes ha) (hb hBytes)
  rcases hFactors hBytes with ⟨hPositive, hSigned⟩ | hSigned
  · have hSign : 0 ≤ a * b := by
      rw [inRange_iff, hSigned] at ha
      exact Int.mul_nonneg ha.1 hPositive
    rw [hSigned] at hProduct
    simp only [Bool.false_eq_true, if_false] at hProduct
    refine wordOf_wrap_iff (Or.inr (by omega)) (Or.inr ⟨by omega, ?_⟩)
    rw [hSigned]
    exact nofun
  · rw [hSigned] at hProduct
    simp only [if_true] at hProduct
    exact wordOf_wrap_iff (Or.inr (by omega)) (Or.inr ⟨by omega, fun _ => by omega⟩)

theorem mul_iff (ha : type.InRange a) (hb : type.InRange b) :
    wordOf a * wordOf b = wordOf (type.wrap (a * b)) ↔ type.Keeps (a * b) := by
  have hProduct : wordOf a * wordOf b = wordOf (a * b) := (BitVec.ofInt_mul a b).symm
  rw [hProduct]
  refine wordOf_wrap_mul_iff ?_ ha fun hBytes => natAbs_le hBytes hb
  intro _
  cases hSigned : type.signed with
  | false =>
    rw [inRange_iff, hSigned] at hb
    exact Or.inl ⟨hb.1, rfl⟩
  | true => exact Or.inr rfl

theorem toNat_count (hb : 0 ≤ b) (hWidth : b < 8 * type.bytes) :
    (wordOf b).toNat % 256 % 64 = b.toNat ∧ b.toNat < 8 * type.bytes := by
  have hBytes := type.bytes_cases
  rw [toNat_wordOf]
  omega

theorem shl_iff (ha : type.InRange a) (hb : 0 ≤ b) (hWidth : b < 8 * type.bytes) :
    ShiftOp.shl.apply (wordOf a) ((wordOf b).toNat % 256) =
      wordOf (type.wrap (a * 2 ^ b.toNat)) ↔ type.Keeps (a * 2 ^ b.toNat) := by
  obtain ⟨hCount, hLt⟩ := toNat_count hb hWidth
  have hShift : ShiftOp.shl.apply (wordOf a) ((wordOf b).toNat % 256) =
      wordOf (a * 2 ^ b.toNat) := by
    rw [ShiftOp.apply, hCount, BitVec.shiftLeft_eq_mul_twoPow]
    have hPower : BitVec.twoPow 64 b.toNat = wordOf (2 ^ b.toNat) := by
      apply BitVec.eq_of_toNat_eq
      rw [toNat_wordOf, BitVec.toNat_twoPow]
      norm_cast
    rw [hPower]
    exact (BitVec.ofInt_mul a _).symm
  have hPower : (0 : Int) < 2 ^ b.toNat := Int.pow_pos (by decide)
  rw [hShift]
  refine wordOf_wrap_mul_iff ?_ ha ?_
  · intro _
    cases type.signed with
    | false => exact Or.inl ⟨Int.le_of_lt hPower, rfl⟩
    | true => exact Or.inr rfl
  · intro hBytes
    have hNarrow : b.toNat ≤ 31 := by
      have := type.bytes_cases
      omega
    have hBound : 2 ^ b.toNat ≤ 2 ^ 31 := Nat.pow_le_pow_right (by decide) hNarrow
    have hAbs : (2 ^ b.toNat : Int).natAbs = 2 ^ b.toNat := by
      rfl
    split <;> omega

theorem inRange_of_between {q : Int} (ha : type.InRange a) (hLow : min a 0 ≤ q)
    (hHigh : q ≤ max a 0) : type.InRange q := by
  have hPower : (0 : Int) < 2 ^ (8 * type.bytes - 1) := Int.pow_pos (by decide)
  rw [inRange_iff] at ha ⊢
  split at ha <;> simp only [*, if_true, Bool.false_eq_true, if_false] <;> omega

theorem inRange_shiftRight (ha : type.InRange a) (n : Nat) : type.InRange (a / 2 ^ n) := by
  have hPower : (0 : Int) < 2 ^ n := Int.pow_pos (by decide)
  have hDown : a / 2 ^ n ≤ max a 0 := by
    by_cases hSign : 0 ≤ a
    · exact Int.le_trans (Int.ediv_le_self _ hSign) (Int.le_max_left _ _)
    · exact Int.le_trans (Int.ediv_neg_of_neg_of_pos (by omega) hPower).le (Int.le_max_right _ _)
  have hUp : min a 0 ≤ a / 2 ^ n := by
    by_cases hSign : 0 ≤ a
    · exact Int.le_trans (Int.min_le_right _ _) (Int.ediv_nonneg hSign hPower.le)
    · refine Int.le_trans (Int.min_le_left _ _) (Int.le_ediv_of_mul_le hPower ?_)
      nlinarith
  exact inRange_of_between ha hUp hDown

theorem sar_eq (hb : 0 ≤ b) (hWidth : b < 8 * type.bytes) :
    ShiftOp.sar.apply (wordOf a) ((wordOf b).toNat % 256) = wordOf (signedAt 8 a / 2 ^ b.toNat) := by
  obtain ⟨hCount, -⟩ := toNat_count hb hWidth
  rw [ShiftOp.apply, hCount, ← wordOf_toInt (BitVec.sshiftRight _ _), BitVec.toInt_sshiftRight,
    toInt_wordOf, Int.shiftRight_eq_div_pow]
  norm_cast

theorem shr_iff (ha : type.InRange a) (hb : 0 ≤ b) (hWidth : b < 8 * type.bytes) :
    ShiftOp.sar.apply (wordOf a) ((wordOf b).toNat % 256) =
      wordOf (type.wrap (a / 2 ^ b.toNat)) ↔ (type = .uint64 → a < 2 ^ 63 ∨ b = 0) := by
  rw [sar_eq hb hWidth, wrap_of_inRange (inRange_shiftRight ha _), signedAt_eight ha]
  by_cases hHigh : type = .uint64 ∧ 2 ^ 63 ≤ a
  · obtain ⟨rfl, hHigh⟩ := hHigh
    rw [if_pos ⟨rfl, hHigh⟩, wordOf_eq_iff]
    obtain ⟨n, rfl⟩ : ∃ n : Nat, b = n := ⟨b.toNat, by omega⟩
    have hn : n < 64 := by
      change (n : Int) < 8 * (8 : Nat) at hWidth
      omega
    rw [Int.toNat_natCast]
    have hSplit : (2 : Int) ^ 64 = 2 ^ (64 - n) * 2 ^ n := by
      rw [← Int.pow_add]
      congr 1
      omega
    have hQuotient : (a - 2 ^ 64) / 2 ^ n = a / 2 ^ n - 2 ^ (64 - n) := by
      rw [hSplit, Int.sub_mul_ediv_right _ _ (pow_ne_zero _ (by decide))]
    -- the copies of the sign are lost only if there are none
    by_cases hZero : n = 0
    · subst hZero
      omega
    · have hSmall : (2 : Int) ^ (64 - n) ≤ 2 ^ 63 := by
        exact pow_le_pow_right₀ (by decide) (by omega)
      have hPositive : (0 : Int) < 2 ^ (64 - n) := Int.pow_pos (by decide)
      generalize (2 : Int) ^ (64 - n) = p at *
      generalize a / 2 ^ n = q at *
      simp only [true_implies]
      omega
  · rw [if_neg hHigh]
    refine ⟨fun _ hType => Or.inl ?_, fun _ => rfl⟩
    have := not_and.mp hHigh hType
    omega

theorem bitwise_eq (ha : type.InRange a) (hb : type.InRange b) :
    wordOf a &&& wordOf b = wordOf (type.valueOf (BitVec.ofInt _ a &&& BitVec.ofInt _ b)) ∧
    wordOf a ||| wordOf b = wordOf (type.valueOf (BitVec.ofInt _ a ||| BitVec.ofInt _ b)) ∧
    wordOf a ^^^ wordOf b = wordOf (type.valueOf (BitVec.ofInt _ a ^^^ BitVec.ofInt _ b)) := by
  have hExtend : ∀ x, type.InRange x → wordOf x = wordOf (type.valueOf (BitVec.ofInt _ x)) :=
    fun x hx => congrArg wordOf (wrap_of_inRange hx).symm
  rw [hExtend a ha, hExtend b hb]
  unfold IntType.valueOf
  cases hSigned : type.signed with
  | false =>
    have hWord : ∀ w : BitVec (8 * type.bytes), wordOf w.toNat = w.setWidth 64 := by
      intro w
      apply BitVec.eq_of_toNat_eq
      rw [toNat_wordOf, BitVec.toNat_setWidth]
      omega
    simp only [Bool.false_eq_true, if_false, hWord, BitVec.setWidth_and, BitVec.setWidth_or,
      BitVec.setWidth_xor, and_self]
  | true =>
    have hWord : ∀ w : BitVec (8 * type.bytes), wordOf w.toInt = w.signExtend 64 := fun w => rfl
    simp only [if_true, hWord, BitVec.signExtend_and, BitVec.signExtend_or,
      BitVec.signExtend_xor, and_self]

end Arithmetic

-- ---
-- Division
-- ---

section Division

variable {a b : Int}

theorem toInt_dividend (x : Word) : ((if x.msb then -1 else 0 : Word) ++ x).toInt = x.toInt := by
  have hWord : x.toInt = if x.msb then (x.toNat : Int) - (2 ^ 64 : Nat) else x.toNat :=
    BitVec.toInt_eq_msb_cond x
  rw [BitVec.toInt_append, if_neg (by decide), hWord]
  cases x.msb
  · rw [if_neg (by decide), if_neg (by decide), show (0 : Word).toInt = 0 by decide]
    omega
  · rw [if_pos rfl, if_pos rfl, show (-1 : Word).toInt = -1 by decide]
    omega

theorem tdiv_small (a : Int) (hb : b ≠ 0) : b = 1 ∧ a.tdiv b = a ∨ b = -1 ∧ a.tdiv b = -a ∨
      b ≠ 1 ∧ b ≠ -1 ∧ 2 * (a.tdiv b).natAbs ≤ a.natAbs := by
  by_cases hOne : b = 1
  · exact Or.inl ⟨hOne, by rw [hOne, Int.tdiv_one]⟩
  by_cases hMinus : b = -1
  · exact Or.inr (Or.inl ⟨hMinus, by rw [hMinus, Int.tdiv_neg, Int.tdiv_one]⟩)
  · refine Or.inr (Or.inr ⟨hOne, hMinus, ?_⟩)
    rw [Int.natAbs_tdiv, Nat.mul_comm]
    have hTwo : 2 ≤ b.natAbs := by omega
    exact le_trans (Nat.mul_le_mul_left _ hTwo) (Nat.div_mul_le_self _ _)

/-- **`idiv`.** -/
theorem idivWord_eq (x y : Word) (hy : y ≠ 0) : idivWord (if x.msb then -1 else 0) x y =
      if x.toInt = -2 ^ 63 ∧ y.toInt = -1 then none
      else some (wordOf (x.toInt.tdiv y.toInt), wordOf (x.toInt.tmod y.toInt)) := by
  have hLow := x.le_toInt
  have hHigh := x.toInt_lt
  have hZero : y.toInt ≠ 0 := fun h => hy (BitVec.eq_of_toInt_eq (h))
  have hSmall := tdiv_small x.toInt hZero
  unfold idivWord
  simp only [toInt_dividend]
  by_cases hTrap : x.toInt = -2 ^ 63 ∧ y.toInt = -1
  · rw [if_pos hTrap, if_pos]
    rw [hTrap.1, hTrap.2]
    exact Or.inr (Or.inr (by decide))
  · rw [if_neg hTrap, if_neg]
    · rfl
    · rintro (h | h | h)
      · exact hy h
      · omega
      · omega

theorem wordOf_ne_zero (hb : type.InRange b) (hZero : b ≠ 0) : wordOf b ≠ 0 := by
  intro h
  have hMod := (wordOf_eq_iff b 0).mp h
  have hRange := inRange_word hb
  omega

theorem idivWord_wordOf (hb : type.InRange b) (hZero : b ≠ 0) :
    idivWord (if (wordOf a).msb then -1 else 0) (wordOf a) (wordOf b) =
      if signedAt 8 a = -2 ^ 63 ∧ signedAt 8 b = -1 then none
      else some (wordOf ((signedAt 8 a).tdiv (signedAt 8 b)),
        wordOf ((signedAt 8 a).tmod (signedAt 8 b))) := by
  rw [idivWord_eq _ _ (wordOf_ne_zero hb hZero), toInt_wordOf, toInt_wordOf]

theorem keeps_tdiv_iff (hType : type ≠ .uint64) (ha : type.InRange a) (hb : type.InRange b)
    (hZero : b ≠ 0) (hTrap : ¬ (type = .int64 ∧ a = -2 ^ 63 ∧ b = -1)) :
    type.Keeps (a.tdiv b) ↔ ¬ (type.signed = true ∧ a = -2 ^ (8 * type.bytes - 1) ∧ b = -1) := by
  have hSmall := tdiv_small a hZero
  have hSign : 0 ≤ a → 0 ≤ b → 0 ≤ a.tdiv b := Int.tdiv_nonneg
  unfold IntType.Keeps
  rw [inRange_iff] at *
  generalize a.tdiv b = q at *
  cases type <;>
    simp only [IntType.bytes, IntType.signed, if_true, Bool.false_eq_true, if_false, reduceCtorEq,
      Nat.reduceEqDiff, true_or, false_or, false_and, true_and, not_false_eq_true, ne_eq,
      not_true_eq_false, true_iff, iff_true] at * <;>
    omega

theorem inRange_tmod (ha : type.InRange a) (b : Int) : type.InRange (a.tmod b) := by
  have hSmall : (a.tmod b).natAbs ≤ a.natAbs := by
    rw [Int.natAbs_tmod]
    exact Nat.mod_le _ _
  have hUp : 0 ≤ a → 0 ≤ a.tmod b := Int.tmod_nonneg b
  have hDown : a ≤ 0 → a.tmod b ≤ 0 := by
    intro h
    have := Int.tmod_nonneg b (Int.neg_nonneg_of_nonpos h)
    rw [Int.neg_tmod] at this
    omega
  exact inRange_of_between ha (by omega) (by omega)

theorem idivWord_uint64 (ha : IntType.uint64.InRange a) (hb : IntType.uint64.InRange b)
    (hZero : b ≠ 0) :
    idivWord (if (wordOf a).msb then -1 else 0) (wordOf a) (wordOf b) =
      if a = 2 ^ 63 ∧ b = 2 ^ 64 - 1 then none
      else if a < 2 ^ 63 then
        if b < 2 ^ 63 then some (wordOf (a / b), wordOf (a % b))
        else some (wordOf (-(a / (2 ^ 64 - b))), wordOf (a % (2 ^ 64 - b)))
      else if b < 2 ^ 63 then
        some (wordOf (-((2 ^ 64 - a) / b)), wordOf (-((2 ^ 64 - a) % b)))
      else
        some (wordOf ((2 ^ 64 - a) / (2 ^ 64 - b)), wordOf (-((2 ^ 64 - a) % (2 ^ 64 - b)))) := by
  rw [idivWord_wordOf hb hZero, signedAt_eight ha, signedAt_eight hb]
  simp only [inRange_iff, IntType.bytes, IntType.signed, Bool.false_eq_true, if_false] at ha hb
  have hMinusA : a - 2 ^ 64 = -(2 ^ 64 - a) := by omega
  have hMinusB : b - 2 ^ 64 = -(2 ^ 64 - b) := by omega
  have hA : 0 ≤ 2 ^ 64 - a := by omega
  by_cases hTrap : a = 2 ^ 63 ∧ b = 2 ^ 64 - 1
  · obtain ⟨rfl, rfl⟩ := hTrap
    rfl
  rw [if_neg hTrap, if_neg]
  · by_cases hALow : a < 2 ^ 63 <;> by_cases hBLow : b < 2 ^ 63 <;>
      simp only [hALow, hBLow, true_and, if_true, if_false, ← not_lt, not_true_eq_false,
        not_false_eq_true, hMinusA, hMinusB, Int.neg_tdiv, Int.tdiv_neg, Int.neg_tmod,
        Int.tmod_neg, Int.neg_neg, Int.tdiv_eq_ediv_of_nonneg ha.1,
        Int.tdiv_eq_ediv_of_nonneg hA, Int.tmod_eq_emod_of_nonneg ha.1,
        Int.tmod_eq_emod_of_nonneg hA, Int.ediv_neg, Int.emod_neg]
  · simp only [true_and]
    split <;> split <;> omega

theorem ediv_bounds (ha : 0 ≤ a) (hb : 0 < b) :
    0 ≤ a / b ∧ a / b ≤ a ∧ (a < b ↔ a / b = 0) ∧ (b ≤ a ∧ a < 2 * b ↔ a / b = 1) := by
  have hPos : 0 ≤ a / b := Int.ediv_nonneg ha hb.le
  have hLow := Int.ediv_mul_le a hb.ne'
  have hHigh := Int.lt_ediv_add_one_mul_self a hb
  refine ⟨hPos, Int.ediv_le_self b ha, ?_, ?_⟩
  · constructor
    · exact Int.ediv_eq_zero_of_lt ha
    · intro h
      rw [h] at hHigh
      omega
  · constructor
    · rintro ⟨h1, h2⟩
      nlinarith
    · intro h
      rw [h] at hLow hHigh
      omega

theorem quotientAgrees_iff (ha : IntType.uint64.InRange a) (hb : IntType.uint64.InRange b)
    (hZero : b ≠ 0) :
    (idivWord (if (wordOf a).msb then -1 else 0) (wordOf a) (wordOf b)).map Prod.fst =
      some (wordOf (a / b)) ↔ QuotientAgrees a b := by
  rw [idivWord_uint64 ha hb hZero]
  simp only [inRange_iff, IntType.bytes, IntType.signed, Bool.false_eq_true, if_false] at ha hb
  obtain ⟨hQ, hQa, hQZero, hQOne⟩ := ediv_bounds (b := b) ha.1 (by omega)
  unfold QuotientAgrees
  by_cases hTrap : a = 2 ^ 63 ∧ b = 2 ^ 64 - 1
  · rw [if_pos hTrap]
    simp only [map_none, reduceCtorEq, false_iff]
    omega
  rw [if_neg hTrap]
  by_cases hALow : a < 2 ^ 63 <;> by_cases hBLow : b < 2 ^ 63
  all_goals
    simp only [hALow, hBLow, ite_true, ite_false, map_some, some.injEq,
      wordOf_eq_iff, true_and, false_and, and_false, false_or, or_false, ← not_lt,
      not_true_eq_false, not_false_eq_true]
  · obtain ⟨hS, hSa, hSZero, -⟩ := ediv_bounds (b := 2 ^ 64 - b) ha.1 (by omega)
    generalize a / b = q at *
    generalize a / (2 ^ 64 - b) = s at *
    omega
  · -- both quotients add up to `2 ^ 64 / b` at most
    have hSum : (2 ^ 64 - a) / b + a / b = 2 ^ 64 → b ≤ 1 := by
      intro h
      have h1 := Int.ediv_mul_le (2 ^ 64 - a) hZero
      have h2 := Int.ediv_mul_le a hZero
      have : ((2 ^ 64 - a) / b + a / b) * b ≤ 2 ^ 64 := by
        rw [Int.add_mul]
        omega
      rw [h] at this
      omega
    obtain ⟨hS, hSa, hSZero, -⟩ := ediv_bounds (a := 2 ^ 64 - a) (b := b) (by omega) (by omega)
    constructor
    · intro h
      generalize a / b = q at *
      generalize (2 ^ 64 - a) / b = s at *
      omega
    · intro h
      obtain rfl : b = 1 := by omega
      omega
  · obtain ⟨hS, hSa, hSZero, hSOne⟩ :=
      ediv_bounds (a := 2 ^ 64 - a) (b := 2 ^ 64 - b) (by omega) (by omega)
    generalize a / b = q at *
    generalize (2 ^ 64 - a) / (2 ^ 64 - b) = s at *
    omega

theorem emod_bounds (ha : 0 ≤ a) (hb : 0 < b) :
    0 ≤ a % b ∧ a % b < b ∧ (a < b → a % b = a) ∧ (b ≤ a → a < 2 * b → a % b = a - b) := by
  refine ⟨Int.emod_nonneg a hb.ne', Int.emod_lt_of_pos a hb, Int.emod_eq_of_lt ha, ?_⟩
  intro h1 h2
  rw [← Int.sub_emod_right, Int.emod_eq_of_lt (by omega) (by omega)]

theorem remainderAgrees_iff (ha : IntType.uint64.InRange a) (hb : IntType.uint64.InRange b)
    (hZero : b ≠ 0) :
    (idivWord (if (wordOf a).msb then -1 else 0) (wordOf a) (wordOf b)).map Prod.snd =
      some (wordOf (a % b)) ↔ RemainderAgrees a b := by
  rw [idivWord_uint64 ha hb hZero]
  simp only [inRange_iff, IntType.bytes, IntType.signed, Bool.false_eq_true, if_false] at ha hb
  obtain ⟨hR, hRb, hRLess, hROnce⟩ := emod_bounds (b := b) ha.1 (by omega)
  unfold RemainderAgrees
  by_cases hTrap : a = 2 ^ 63 ∧ b = 2 ^ 64 - 1
  · rw [if_pos hTrap]
    simp only [map_none, reduceCtorEq, false_iff]
    omega
  rw [if_neg hTrap]
  by_cases hALow : a < 2 ^ 63 <;> by_cases hBLow : b < 2 ^ 63
  all_goals
    simp only [hALow, hBLow, ite_true, ite_false, map_some, some.injEq,
      wordOf_eq_iff, true_and, false_and, and_false, false_or, or_false, ← not_lt,
      not_true_eq_false, not_false_eq_true]
  · obtain ⟨hS, hSb, hSLess, -⟩ := emod_bounds (b := 2 ^ 64 - b) ha.1 (by omega)
    generalize a % b = r at *
    generalize a % (2 ^ 64 - b) = s at *
    omega
  · -- both remainders are 0
    obtain ⟨hS, hSb, -, -⟩ := emod_bounds (a := 2 ^ 64 - a) (b := b) (by omega) (by omega)
    have hBoth : ((2 ^ 64 - a) % b = 0 ∧ a % b = 0) ↔ (a % b = 0 ∧ 2 ^ 64 % b = 0) := by
      rw [← Int.dvd_iff_emod_eq_zero, ← Int.dvd_iff_emod_eq_zero, ← Int.dvd_iff_emod_eq_zero]
      constructor
      · rintro ⟨h1, h2⟩
        exact ⟨h2, (Int.dvd_iff_dvd_of_dvd_sub h1).mpr h2⟩
      · rintro ⟨h1, h2⟩
        exact ⟨Int.dvd_sub h2 h1, h1⟩
    generalize a % b = r at *
    generalize (2 ^ 64 - a) % b = s at *
    generalize 2 ^ 64 % b = t at *
    omega
  · obtain ⟨hS, hSb, hSLess, hSOnce⟩ :=
      emod_bounds (a := 2 ^ 64 - a) (b := 2 ^ 64 - b) (by omega) (by omega)
    generalize a % b = r at *
    generalize (2 ^ 64 - a) % (2 ^ 64 - b) = s at *
    omega

theorem idivWord_of_ne_uint64 (hType : type ≠ .uint64) (ha : type.InRange a)
    (hb : type.InRange b) (hZero : b ≠ 0) :
    idivWord (if (wordOf a).msb then -1 else 0) (wordOf a) (wordOf b) =
      if type = .int64 ∧ a = -2 ^ 63 ∧ b = -1 then none
      else some (wordOf (a.tdiv b), wordOf (a.tmod b)) := by
  have hA : signedAt 8 a = a := by rw [signedAt_eight ha, if_neg (fun h => hType h.1)]
  have hB : signedAt 8 b = b := by rw [signedAt_eight hb, if_neg (fun h => hType h.1)]
  rw [idivWord_wordOf hb hZero, hA, hB]
  have hTrap : (a = -2 ^ 63 ∧ b = -1) ↔ (type = .int64 ∧ a = -2 ^ 63 ∧ b = -1) := by
    rw [inRange_iff] at ha
    cases type <;>
      simp only [IntType.bytes, IntType.signed, if_true, Bool.false_eq_true, if_false,
        reduceCtorEq, false_and, true_and, ne_eq, not_true_eq_false, iff_false] at * <;>
      omega
  exact if_congr hTrap rfl rfl

theorem div_iff (ha : type.InRange a) (hb : type.InRange b) (hZero : b ≠ 0) :
    (idivWord (if (wordOf a).msb then -1 else 0) (wordOf a) (wordOf b)).map Prod.fst =
      some (wordOf (type.wrap (a.tdiv b))) ↔ Agrees type .div a b := by
  simp only [Agrees]
  by_cases hType : type = .uint64
  · subst hType
    have hNonneg : 0 ≤ a := ha.1
    have hQuotient : IntType.uint64.InRange (a / b) := by
      have hBounds := ediv_bounds hNonneg (lt_of_le_of_ne hb.1 hZero.symm)
      exact ⟨hBounds.1, lt_of_le_of_lt hBounds.2.1 ha.2⟩
    rw [if_pos rfl, Int.tdiv_eq_ediv_of_nonneg hNonneg, wrap_of_inRange hQuotient]
    exact quotientAgrees_iff ha hb hZero
  · rw [if_neg hType, idivWord_of_ne_uint64 hType ha hb hZero]
    by_cases hTrap : type = .int64 ∧ a = -2 ^ 63 ∧ b = -1
    · rw [if_pos hTrap]
      obtain ⟨rfl, rfl, rfl⟩ := hTrap
      exact iff_of_false nofun fun h => h ⟨rfl, rfl, rfl⟩
    · rw [if_neg hTrap, ← keeps_tdiv_iff hType ha hb hZero hTrap, map_some, some.injEq]
      have hSmall := tdiv_small a hZero
      refine wordOf_wrap_of_natAbs fun hBytes => ?_
      have hA := natAbs_le_pow hBytes ha
      omega

theorem mod_iff (ha : type.InRange a) (hb : type.InRange b) (hZero : b ≠ 0) :
    (idivWord (if (wordOf a).msb then -1 else 0) (wordOf a) (wordOf b)).map Prod.snd =
      some (wordOf (type.wrap (a.tmod b))) ↔ Agrees type .mod a b := by
  simp only [Agrees]
  rw [wrap_of_inRange (inRange_tmod ha b)]
  by_cases hType : type = .uint64
  · subst hType
    have hNonneg : 0 ≤ a := ha.1
    rw [if_pos rfl, Int.tmod_eq_emod_of_nonneg hNonneg]
    exact remainderAgrees_iff ha hb hZero
  · rw [if_neg hType, idivWord_of_ne_uint64 hType ha hb hZero]
    by_cases hTrap : type = .int64 ∧ a = -2 ^ 63 ∧ b = -1
    · rw [if_pos hTrap]
      exact iff_of_false nofun fun h => h hTrap
    · rw [if_neg hTrap]
      exact iff_of_true rfl hTrap

end Division

-- ---
-- The operators
-- ---

def ValidOperand (type : IntType) (op : IntegerOp) (b : Int) : Prop :=
  (op = .div ∨ op = .mod → b ≠ 0) ∧ (op = .shl ∨ op = .shr → 0 ≤ b ∧ b < 8 * type.bytes)

variable {a b : Int}

/-- **When the word is the result on the type.** -/
theorem resultWord_iff (ha : type.InRange a) (hb : type.InRange b) (hValid : ValidOperand type op b)
    :
    resultWord op type.compareWidth (wordOf a) (wordOf b) = some (wordOf (type.apply op a b)) ↔
      Agrees type op a b := by
  obtain ⟨hDivisor, hCount⟩ := hValid
  cases op
  case add => exact some_inj.trans (add_iff ha hb)
  case sub => exact some_inj.trans (sub_iff ha hb)
  case mul => exact some_inj.trans (mul_iff ha hb)
  case div => exact div_iff ha hb (hDivisor (Or.inl rfl))
  case mod => exact mod_iff ha hb (hDivisor (Or.inr rfl))
  case shl =>
    obtain ⟨hLow, hHigh⟩ := hCount (Or.inl rfl)
    exact some_inj.trans (shl_iff ha hLow hHigh)
  case shr =>
    obtain ⟨hLow, hHigh⟩ := hCount (Or.inr rfl)
    exact some_inj.trans (shr_iff ha hLow hHigh)
  case and => exact iff_of_true (congrArg some (bitwise_eq ha hb).1) trivial
  case or => exact iff_of_true (congrArg some (bitwise_eq ha hb).2.1) trivial
  case xor => exact iff_of_true (congrArg some (bitwise_eq ha hb).2.2) trivial
  all_goals exact compare_iff ha hb rfl

/-- Code reads a local of a type and finds a value of the type, as an operand that it loads and
as one that it may use where it is. -/
structure LocalHolds (context : IntegerContext) (state : X86State) (type : IntType)
    (name : String) (v : Int) : Prop where
  inRange : type.InRange v
  typed : operandType context (.symbol name) = some type
  loaded : operandWord context.toBinaryFunctionContext state (.symbol name) = wordOf v
  direct : directWord context.toBinaryFunctionContext state (.symbol name) = wordOf v

variable {context : IntegerContext}

theorem localHolds_of_symbolWord {name : String}
    {v : Int} (hRange : type.InRange v) (hType : context.declaredType name = some type)
    (hLocal : context.symbolType name = none) (hAlias : context.aliasOf name = name)
    (hStorage : (context.assignedRegister name).isSome ∨ (context.symbolOffset name).isSome)
    (hWord : symbolWord context state name = wordOf v) :
    LocalHolds context state type name v := by
  have hLoaded : operandWord context state (.symbol name) = wordOf v := by
    simp only [operandWord, hAlias]
    split
    · rename_i hNoRegister hNoSlot _
      rw [hNoRegister, hNoSlot] at hStorage
      rcases hStorage with h | h <;> cases h
    · exact hWord
  refine ⟨hRange, ?_, hLoaded, ?_⟩
  · rw [operandType, hLocal, hType]
    rfl
  · cases hRegister : context.assignedRegister name with
    | some register =>
      simp only [symbolWord, hRegister, hLocal, movedWord] at hWord
      simp only [directWord, operandRegister, hRegister]
      exact hWord
    | none =>
      simp only [directWord, operandRegister, hRegister]
      exact hLoaded

def IsLocalDestination (context : BinaryFunctionContext) : IROperand → Prop
  | .temp _ => True
  | .symbol name => context.symbolType name = none
  | _ => False

variable {destination : IROperand}

theorem storedWord_local {context : BinaryFunctionContext}
    (h : IsLocalDestination context destination) (w : Word) :
    destination ≠ .none ∧ storedWord context destination w = w := by
  cases destination with
  | temp name => exact ⟨nofun, rfl⟩
  | symbol name =>
    refine ⟨nofun, ?_⟩
    have hType : context.symbolType name = none := h
    cases hRegister : context.assignedRegister name <;>
      simp only [storedWord, hRegister, hType, movedWord]
  | _ => exact h.elim

def binaryOf (op : IntegerOp) (destination : IROperand) (x y : String) : IRInstruction :=
  { op := .binary, dest := destination, lhs := .symbol x, rhs := .symbol y, text := some op.text }

variable {instruction : IRInstruction}

section Instruction

theorem emitGeneral_runs (state : X86State) {op : String}
    {word : Word → Word → Option Word} (hDestination : instruction.dest ≠ .none) (hOp : ∀ (before :
      X86State) (opCode : List X86), emitRegisterOp op (compareWidth context instruction.lhs
      instruction.rhs) = some opCode → (executeCode context.globalAddress before opCode).map
      (·.registers .rax) = word (before.registers .rax) (before.registers .r10))
    (hCode : emitGeneral context op instruction = some code) :
    (executeCode context.globalAddress state code).map (homeWord context · instruction.dest) =
      (word (operandWord context state instruction.lhs)
        (operandWord context state instruction.rhs)).map (storedWord context instruction.dest) := by
  simp only [emitGeneral, bind_eq_bind, bind_eq_some_iff, pure_def, some.injEq] at hCode
  obtain ⟨rhsCode, hRhs, lhsCode, hLhs, opCode, hOpCode, storeCode, hStore, rfl⟩ := hCode
  rw [List.append_assoc, executeCode_append, loadPair_executes state hRhs hLhs, bind_some,
    executeCode_append]
  have hRun := hOp ((state.set .r10 (operandWord context state instruction.rhs)).set .rax
        (operandWord context state instruction.lhs)) opCode hOpCode
  rw [registers_set, registers_set_of_ne (by decide), registers_set] at hRun
  rw [← hRun]
  cases executeCode context.globalAddress _ opCode with
  | none => rfl
  | some computed =>
    obtain ⟨final, hFinal, hHome⟩ := emitDestinationStore_executes computed
      (show GpRegister.rax.isScratch = true by decide) hDestination hStore
    simp [hFinal, hHome]

theorem emitGeneral_executes (state : X86State) (hDestination : instruction.dest ≠ .none)
    (hCode : emitGeneral context op.text instruction = some code) :
    (executeCode context.globalAddress state code).map (homeWord context · instruction.dest) =
      (resultWord op (compareWidth context instruction.lhs instruction.rhs)
        (operandWord context state instruction.lhs)
        (operandWord context state instruction.rhs)).map (storedWord context instruction.dest) :=
  emitGeneral_runs state hDestination (fun before _ => emitRegisterOp_executes before op _) hCode

theorem emitBinaryInteger_binaryOf (op : IntegerOp) (destination : IROperand) (x y : String) :
    emitBinaryInteger context (binaryOf op destination x y) =
      emitGeneral context op.text (binaryOf op destination x y) := by
  have hText : (binaryOf op destination x y).text = some op.text := rfl
  have hDivisor : powerOfTwoDivisor op.text (binaryOf op destination x y).rhs = none := rfl
  have hImmediate : usableImmediate op.text (binaryOf op destination x y) = none := by
    simp [usableImmediate, immediateOperand, binaryOf, immediate32]
  simp only [emitBinaryInteger, hText, hDivisor, hImmediate]

section

variable {x y : String} (hx : LocalHolds context state type x a)
  (hy : LocalHolds context state type y b)
include hx hy

theorem compareWidth_of_holds :
    compareWidth context (.symbol x) (.symbol y) = type.compareWidth := by
  simp [compareWidth, hx.typed, hy.typed, IntType.compareWidth]

theorem emitCompareFlags_executes
    (hCode : emitCompareFlagsCode context (binaryOf op destination x y) = some code) :
    ∃ final, executeCode context.globalAddress state code = some final ∧
      final.flags = some (emitRegRegCompare (wordOf a) (wordOf b) type.compareWidth) := by
  have hNoImmediate : (if isEquality (binaryOf op destination x y).text
      then immediate32 (binaryOf op destination x y).lhs else none) = none := by
    split <;> rfl
  unfold emitCompareFlagsCode at hCode
  rw [show immediate32 (binaryOf op destination x y).rhs = none from rfl, hNoImmediate] at hCode
  simp only [bind_eq_bind, ite_none_left_eq_some, bind_eq_some_iff,
    pure_def, some.injEq, Prod.exists] at hCode
  obtain ⟨hOp, rhs, rhsCode, hRhs, lhs, lhsCode, hLhs, rfl⟩ := hCode
  obtain ⟨loaded, hLoaded, hRhsWord, hLhsWord, -⟩ :=
    operandInTwo_executes state (by decide) (by decide) (by decide) hRhs hLhs
  rw [executeCode_append, hLoaded, bind_some]
  refine ⟨_, rfl, ?_⟩
  show some (emitRegRegCompare (loaded.registers lhs) (loaded.registers rhs)
    (compareWidth context (.symbol x) (.symbol y))) = _
  rw [hLhsWord, hRhsWord, compareWidth_of_holds hx hy]
  show some (emitRegRegCompare (directWord _ state (.symbol x)) (directWord _ state (.symbol y))
    _) = _
  rw [hx.direct, hy.direct]

end

/-- **When an operator respects the type of its operands.** The operands are two locals of the
type, and the result goes to a temp or a local. For a comparison, the same condition decides
whether the flags that a fused branch or move tests are right. -/
theorem integer_operator_iff (context : IntegerContext) (state : X86State) (type : IntType)
    (op : IntegerOp) (a b : Int) (x y : String) (destination : IROperand) (code : List X86)
    (hx : LocalHolds context state type x a) (hy : LocalHolds context state type y b)
    (hValid : ValidOperand type op b)
    (hDestination : IsLocalDestination context.toBinaryFunctionContext destination)
    (hCode : emitBinaryInteger context (binaryOf op destination x y) = some code) :
    ((∃ final, executeCode context.globalAddress state code = some final ∧
        homeWord context.toBinaryFunctionContext final destination =
          wordOf (type.apply op a b)) ↔ Agrees type op a b) ∧
      ∀ flagsCode jcc cmov,
        emitCompareFlagsCode context (binaryOf op destination x y) = some flagsCode →
        compareFalseJcc op.text = some jcc → compareTrueCmov op.text = some cmov →
        ∃ final flags, executeCode context.globalAddress state flagsCode = some final ∧
          final.flags = some flags ∧
          (conditionHolds jcc flags = decide (type.apply op a b = 0) ↔ Agrees type op a b) ∧
          (conditionHolds cmov flags = decide (type.apply op a b = 1) ↔ Agrees type op a b) := by
  have hWidth := compareWidth_of_holds hx hy
  constructor
  · rw [emitBinaryInteger_binaryOf] at hCode
    have hRun := emitGeneral_executes state (storedWord_local hDestination 0).1 hCode
    have hStored : storedWord context.toBinaryFunctionContext destination = id :=
      funext fun w => (storedWord_local hDestination w).2
    simp only [binaryOf, hWidth, hx.loaded, hy.loaded, hStored, map_id] at hRun
    rw [← resultWord_iff hx.inRange hy.inRange hValid, ← id_eq (resultWord _ _ _ _), ← hRun,
      map_eq_some_iff]
  · intro flagsCode jcc cmov hFlagsCode hJcc hCmov
    obtain ⟨final, hFinal, hFlags⟩ := emitCompareFlags_executes hx hy hFlagsCode
    have hOp : op.isCompare = true := by
      cases op <;> first | rfl | nomatch hJcc
    obtain ⟨setcc, jcc', cmov', -, hJcc', hCmov', -, hJump, hMove⟩ :=
      compare_answers type.compareWidth_cases hOp a b
    obtain rfl := some.inj (hJcc'.symm.trans hJcc)
    obtain rfl := some.inj (hCmov'.symm.trans hCmov)
    refine ⟨final, _, hFinal, hFlags, ?_, ?_⟩
    · rw [hJump, ← holds_iff hx.inRange hy.inRange hOp, apply_compare hOp]
      cases op.holds (signedAt type.compareWidth a) (signedAt type.compareWidth b) <;>
        cases op.holds a b <;> simp
    · rw [hMove, ← holds_iff hx.inRange hy.inRange hOp, apply_compare hOp]
      cases op.holds (signedAt type.compareWidth a) (signedAt type.compareWidth b) <;>
        cases op.holds a b <;> simp

end Instruction

/-! ### Two locals in a frame -/

/-- Locals `x` and `y` of a type, and a temp. -/
def twoLocalsContext (type : IntType) : IntegerContext where
  tempOffset name := if name = "t" then some 8 else none
  symbolOffset name := if name = "x" then some 16 else if name = "y" then some 24 else none
  assignedRegister _ := none
  aliasOf name := name
  symbolType _ := none
  constValue _ := none
  globalAddress _ := 0
  assigned_nonvolatile := none_nonvolatile
  declaredType name := if name = "x" ∨ name = "y" then some type else none

def twoLocalsState (a b : Int) : X86State where
  registers register := if register = .rbp then 4096 else 0
  memory := writeLE (writeLE (fun _ => 0) 4080 8 (wordOf a).toNat) 4072 8 (wordOf b).toNat
  flags := none

def twoLocalsCode (opCode : List X86) : List X86 :=
  [.load 8 .r10 (slot 24), .load 8 .rax (slot 16)] ++ opCode ++ [.store 8 (slot 8) .rax]

/-- `200 + 55` on `uint8`. -/
theorem integer_operator_iff_sum :
    ∃ final, executeCode (twoLocalsContext .uint8).globalAddress (twoLocalsState 200 55)
        (twoLocalsCode [.leaScaled .rax .rax .r10 1]) = some final ∧
      homeWord (twoLocalsContext .uint8).toBinaryFunctionContext final (.temp "t") =
        wordOf 255 := by
  have hx : LocalHolds (twoLocalsContext .uint8) (twoLocalsState 200 55) .uint8 "x" 200 :=
    localHolds_of_symbolWord (by decide) rfl rfl rfl (Or.inr rfl) (by decide)
  have hy : LocalHolds (twoLocalsContext .uint8) (twoLocalsState 200 55) .uint8 "y" 55 :=
    localHolds_of_symbolWord (by decide) rfl rfl rfl (Or.inr rfl) (by decide)
  have hIff := (integer_operator_iff (twoLocalsContext .uint8) (twoLocalsState 200 55) .uint8 .add
    200 55 "x" "y" (.temp "t") (twoLocalsCode [.leaScaled .rax .rax .r10 1]) hx hy
    ⟨by decide, by decide⟩ trivial rfl).1
  exact hIff.mpr (Or.inr (by decide))

/-- **Signed and 64-bit.** The largest half of `uint64` compares as negative, and a sum of two
bytes is not taken modulo 256. -/
theorem not_respects_unsigned : (IntType.uint64.InRange (2 ^ 63) ∧ IntType.uint64.InRange 1 ∧
      emitBinaryInteger (twoLocalsContext .uint64) (binaryOf .lt (.temp "t") "x" "y") =
        some (twoLocalsCode [.cmp 8 .rax .r10, .setccAl 0x9C, .movzxEaxAl]) ∧
      ∃ final, executeCode (twoLocalsContext .uint64).globalAddress (twoLocalsState (2 ^ 63) 1)
          (twoLocalsCode [.cmp 8 .rax .r10, .setccAl 0x9C, .movzxEaxAl]) = some final ∧
        homeWord (twoLocalsContext .uint64).toBinaryFunctionContext final (.temp "t") = 1 ∧
        IntType.uint64.apply .lt (2 ^ 63) 1 = 0) ∧
    (IntType.uint8.InRange 255 ∧ IntType.uint8.InRange 1 ∧
      emitBinaryInteger (twoLocalsContext .uint8) (binaryOf .add (.temp "t") "x" "y") =
        some (twoLocalsCode [.leaScaled .rax .rax .r10 1]) ∧
      ∃ final, executeCode (twoLocalsContext .uint8).globalAddress (twoLocalsState 255 1)
          (twoLocalsCode [.leaScaled .rax .rax .r10 1]) = some final ∧
        homeWord (twoLocalsContext .uint8).toBinaryFunctionContext final (.temp "t") = 256 ∧
        IntType.uint8.apply .add 255 1 = 0) := by
  refine ⟨⟨by decide, by decide, rfl, _, rfl, ?_, by decide⟩, by decide, by decide, rfl, _, rfl,
    ?_, by decide⟩
  · decide
  · decide

end Mettle.Codegen
