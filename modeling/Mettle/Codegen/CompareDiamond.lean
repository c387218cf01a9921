import Mettle.Codegen.Peephole
import Mettle.Codegen.SymbolAlias

/-!
# Mettle — compare-and-assign fusion

A comparison, a branch over an assignment and the two labels behind it become a compare and
a conditional move. The module models the code for the six instructions as they stand and the
fused code, over the same frame: temp slots, the slots and registers of symbols with the width
of their type, and the records of strings and aggregates.

The fused code compares another operand than the comparison does if it finds, within eight
instructions, an assignment of the assigned temp to the compared symbol; whether the two still
hold the same value is not looked at. It also moves the assigned value as it is, where the
assignment would convert it.
-/

namespace Mettle.Codegen

open Mettle.IR List Option BitVec

-- ---
-- Registers, flags and slots
-- ---

abbrev Word := BitVec 64

/-- The flags that the conditions of the comparisons look at. -/
structure Flags where
  zero : Bool
  sign : Bool
  overflow : Bool
  deriving DecidableEq

/-- `cmp a, b`. -/
def cmpRegReg {n : Nat} (a b : BitVec n) : Flags :=
  { zero := a == b, sign := (a - b).msb, overflow := BitVec.ssubOverflow a b }

/-- `binary_emit_cmp_reg_imm32`: a comparison with 0 is a `test`. -/
def cmpRegImm32 (a : Word) (immediate : Int) : Flags :=
  if immediate = 0 then { zero := a == 0, sign := a.msb, overflow := false }
  else cmpRegReg a (BitVec.ofInt 64 immediate)

/-- The condition in the low four bits of a `setcc`, `jcc` or `cmovcc` opcode. -/
def conditionHolds (opcode : Nat) (flags : Flags) : Bool :=
  match opcode % 16 with
  | 0x4 => flags.zero
  | 0x5 => !flags.zero
  | 0xC => flags.sign != flags.overflow
  | 0xD => flags.sign == flags.overflow
  | 0xE => flags.zero || flags.sign != flags.overflow
  | 0xF => !flags.zero && flags.sign == flags.overflow
  | _ => false

/-- `code_generator_binary_compare_true_cmov`. -/
def compareTrueCmov (op : String) : Option Nat :=
  if op = "==" then some 0x44
  else if op = "!=" then some 0x45
  else if op = "<" then some 0x4C
  else if op = "<=" then some 0x4E
  else if op = ">" then some 0x4F
  else if op = ">=" then some 0x4D
  else none

/-- The `setcc` of a comparison that is not fused. -/
def compareSetcc (op : String) : Option Nat :=
  if op = "==" then some 0x94
  else if op = "!=" then some 0x95
  else if op = "<" then some 0x9C
  else if op = "<=" then some 0x9E
  else if op = ">" then some 0x9F
  else if op = ">=" then some 0x9D
  else none

/-- How a symbol is stored: a scalar of some bytes in a slot or as a global, a register, the
record of a string, or an aggregate. A string is handled through its address. The type of a
symbol is looked up by its name, which finds no type for most locals: their scalars take
8 bytes, and their registers are moved whole (`none`) and not as 4 bytes of a signedness. -/
inductive Storage
  | scalar (bytes : Nat) (signed : Bool)
  | register (narrow : Option Bool)
  | string
  | aggregate
  deriving DecidableEq

/-- A symbol with a record in memory. -/
def Storage.hasRecord : Storage → Bool
  | .string | .aggregate => true
  | _ => false

/-- A load of so many bytes. -/
def extendScalar (bytes : Nat) (signed : Bool) (w : Word) : Word :=
  match bytes with
  | 1 => if signed then (w.setWidth 8).signExtend 64 else (w.setWidth 8).setWidth 64
  | 2 => if signed then (w.setWidth 16).signExtend 64 else (w.setWidth 16).setWidth 64
  | 4 => if signed then (w.setWidth 32).signExtend 64 else (w.setWidth 32).setWidth 64
  | _ => w

/-- `code_generator_binary_emit_reg_reg_move`, by the type of the symbol. -/
def registerMove (narrow : Option Bool) (w : Word) : Word :=
  match narrow with
  | some signed => extendScalar 4 signed w
  | none => w

/-- What the code generator knows about names and types, and where it put things. -/
structure GeneratorContext where
  storage : String → Storage
  -- locals that share the storage of another symbol
  symbolAliases : AliasTable
  recordAddress : String → Word
  literalRecord : String → Word
  literalChars : String → Word
  isCstring : IROperand → Bool
  isString : IROperand → Bool
  -- the temp holds the address of a struct that a call returned
  indirectTemp : String → Bool
  -- the signedness of the type that a symbol is declared with, if it is a scalar of 4 bytes
  declaredNarrow : String → Option Bool
  -- the size of an operand's type, and of the type of the expression that the instruction at an
  -- index came from
  operandSize : IROperand → Option Nat
  inferredSize : Nat → Option Nat
  -- the float width of a named operand, 0 if it is not a float
  markedFloatBits : IROperand → Nat
  -- conversions between the two float formats
  singleOfDouble : Word → Word
  cvtsd2ss : Word → Word
  cvtss2sd : Word → Word
  aliases_ok : TableOk symbolAliases
  -- two symbols have two records
  records_disjoint : ∀ x y, (storage x).hasRecord = true → (storage y).hasRecord = true →
    recordAddress x = recordAddress y → x = y

/-- The values in front of or behind some code. -/
structure Frame where
  temps : String → Word
  -- the slot or the register of a symbol; of a slot only the low bytes count
  slots : String → Word
  -- strings and aggregates: the first word (of a string, its characters) and the rest
  records : Word → Word × List Word

variable (context : GeneratorContext)

/-- `code_generator_binary_emit_operand_load`: the word that is loaded. No load touches the
flags. -/
def emitOperandLoad (frame : Frame) : IROperand → Option Word
  | .none => some 0
  | .int intValue => some (BitVec.ofInt 64 intValue)
  | .float floatValue floatBits =>
    some (if floatBits = 32 then context.singleOfDouble floatValue else floatValue)
  | .string name => some (context.literalRecord name)
  | .temp name => some (frame.temps name)
  | .symbol name =>
    let place := storageOf context.symbolAliases name
    match context.storage place with
    | .scalar bytes signed => some (extendScalar bytes signed (frame.slots place))
    | .register narrow => some (registerMove narrow (frame.slots place))
    | .string => some (context.recordAddress place)
    | .aggregate => some (frame.records (context.recordAddress place)).1
  | .label _ => none

/-- `code_generator_binary_emit_destination_store`. A store is not redirected. -/
def emitDestinationStore (frame : Frame) (destination : IROperand) (w : Word) : Option Frame :=
  match destination with
  | .none => some frame
  | .temp name => some { frame with temps := Function.update frame.temps name w }
  | .symbol name =>
    let address := context.recordAddress name
    match context.storage name with
    | .scalar _ _ => some { frame with slots := Function.update frame.slots name w }
    | .register narrow =>
      some { frame with slots := Function.update frame.slots name (registerMove narrow w) }
    | .string =>
      some { frame with records := Function.update frame.records address (frame.records w) }
    | .aggregate =>
      some { frame with
        records := Function.update frame.records address (w, (frame.records address).2) }
  | _ => none

-- ---
-- Comparisons
-- ---

/-- The value fits a sign-extended immediate. -/
def immediateFitsSigned32 (value : Int) : Bool :=
  -2147483648 ≤ value && value ≤ 2147483647

/-- `code_generator_binary_instruction_compare_width`. -/
def instructionCompareWidth (i : Nat) (instruction : IRInstruction) : Nat :=
  match context.inferredSize i with
  | some size => if size = 4 then 4 else 8
  | none =>
    match context.operandSize instruction.lhs, context.operandSize instruction.rhs with
    | some lhsSize, some rhsSize => if lhsSize = rhsSize ∧ lhsSize = 4 then 4 else 8
    | _, _ => 8

/-- The flags of a `cmp` of that width. -/
def emitRegRegCompare (lhs rhs : Word) (width : Nat) : Flags :=
  if width = 4 then cmpRegReg (lhs.setWidth 32) (rhs.setWidth 32) else cmpRegReg lhs rhs

/-- The word that a fused comparison takes for an operand: a register as it stands. -/
def compareOperand (frame : Frame) (operand : IROperand) : Option Word :=
  match operand with
  | .symbol name =>
    match context.storage name with
    | .register _ => some (frame.slots name)
    | _ => emitOperandLoad context frame operand
  | _ => emitOperandLoad context frame operand

def immediate32 : IROperand → Option Int
  | .int intValue => if immediateFitsSigned32 intValue then some intValue else none
  | _ => none

def isEquality (text : Option String) : Bool := text == some "==" || text == some "!="

/-- The flags of a comparison, from the words that the operands have. -/
def compareFlagsWith (load : IROperand → Option Word) (width : Nat) (compare : IRInstruction) :
    Option Flags :=
  match immediate32 compare.rhs with
  | some immediate => (load compare.lhs).map (cmpRegImm32 · immediate)
  | none =>
    match (if isEquality compare.text then immediate32 compare.lhs else none) with
    | some immediate => (load compare.rhs).map (cmpRegImm32 · immediate)
    | none =>
      match load compare.lhs, load compare.rhs with
      | some lhs, some rhs => some (emitRegRegCompare lhs rhs width)
      | _, _ => none

/-- `code_generator_binary_emit_compare_flags`. -/
def emitCompareFlags (frame : Frame) (i : Nat) (compare : IRInstruction) : Option Flags :=
  compareFlagsWith (compareOperand context frame) (instructionCompareWidth context i compare) compare

/-- `binary_emit_binary_integer` for a comparison: the flags, and 0 or 1 in the destination. -/
def emitBinaryCompare (frame : Frame) (i : Nat) (compare : IRInstruction) : Option Flags :=
  compareFlagsWith (emitOperandLoad context frame) (instructionCompareWidth context i compare) compare

-- ---
-- The six instructions as they stand
-- ---

/-- `code_generator_binary_operand_float_bits`. -/
def operandFloatBits (operand : IROperand) : Nat :=
  match operand with
  | .float _ floatBits => if floatBits = 32 then 32 else 64
  | .symbol _ | .temp _ => context.markedFloatBits operand
  | _ => 0

/-- `code_generator_binary_emit_float_reg_convert`. -/
def emitFloatRegConvert (sourceBits destinationBits : Nat) (w : Word) : Word :=
  if sourceBits = 64 ∧ destinationBits = 32 then context.cvtsd2ss w
  else if sourceBits = 32 ∧ destinationBits = 64 then context.cvtss2sd w
  else w

/-- `code_generator_binary_emit_call_argument_load` for a `cstring`: the characters of a string. -/
def emitCstringLoad (frame : Frame) (operand : IROperand) : Option Word :=
  match operand with
  | .string name => some (context.literalChars name)
  | _ =>
    (emitOperandLoad context frame operand).map fun w =>
      if context.isString operand then (frame.records w).1 else w

/-- The copy of a struct that a call returned through memory. -/
def copiesReturned (assign : IRInstruction) : Bool :=
  match assign.dest, assign.lhs with
  | .symbol name, .temp tempName =>
    context.indirectTemp tempName && context.storage name == .aggregate
  | _, _ => false

/-- The assignment loads its value right into the register of its destination. -/
def loadsIntoRegister (assign : IRInstruction) : Bool :=
  match assign.dest with
  | .symbol name =>
    match context.storage name with
    | .register _ => !assign.isFloat
    | _ => false
  | _ => false

/-- The signedness of the 4 bytes that are loaded from a temp into the register of a symbol. -/
def narrowTempLoad (assign : IRInstruction) : Option Bool :=
  match assign.dest, assign.lhs with
  | .symbol name, .temp _ =>
    if loadsIntoRegister context assign then context.declaredNarrow name else none
  | _, _ => none

/-- The word that an assignment stores: as it is loaded, and converted for the destination. -/
def assignedValue (frame : Frame) (assign : IRInstruction) : Option Word :=
  match narrowTempLoad context assign with
  | some signed => (emitOperandLoad context frame assign.lhs).map (extendScalar 4 signed)
  | none =>
    let loaded :=
      if context.isCstring assign.dest then emitCstringLoad context frame assign.lhs
      else emitOperandLoad context frame assign.lhs
    loaded.map fun w =>
      if assign.isFloat ∧ assign.floatBits ≠ 0 then
        emitFloatRegConvert context (operandFloatBits context assign.lhs) assign.floatBits w
      else w

/-- The store of an assignment: the copy of a struct, a load into a register, or a plain store. -/
def emitAssignStore (frame : Frame) (assign : IRInstruction) (w : Word) : Option Frame :=
  match assign.dest with
  | .symbol name =>
    let address := context.recordAddress name
    if copiesReturned context assign then
      some { frame with records := Function.update frame.records address (frame.records w) }
    else if loadsIntoRegister context assign then
      some { frame with slots := Function.update frame.slots name w }
    else emitDestinationStore context frame assign.dest w
  | _ => emitDestinationStore context frame assign.dest w

/-- An assignment as it stands. A copy to a symbol that shares the storage of the copied one
emits nothing. -/
def emitAssign (frame : Frame) (assign : IRInstruction) : Option Frame :=
  if isElidedCopy context.symbolAliases assign then some frame
  else (assignedValue context frame assign).bind (emitAssignStore context frame assign)

def executeDiamond (frame : Frame) (i : Nat) (compare branch assign : IRInstruction) :
    Option Frame := do
  let op ← compare.text
  let setcc ← compareSetcc op
  let flags ← emitBinaryCompare context frame i compare
  let frame ← emitDestinationStore context frame compare.dest
    (if conditionHolds setcc flags then 1 else 0)
  let tested ← emitOperandLoad context frame branch.lhs
  if tested = 0 then some frame else emitAssign context frame assign

-- ---
-- The fused code
-- ---

def assignsTempToSymbol (instruction : IRInstruction) (symbolName tempName : String) : Bool :=
  instruction.op == .assign && instruction.dest == .symbol symbolName &&
    instruction.lhs == .temp tempName

/-- The backward search, from `ai` on while `ai` is above the bound. -/
def findValueAssign (function : IRFunction) (symbolName tempName : String) (bound : Nat) :
    Nat → Bool
  | 0 => false
  | ai + 1 =>
    decide (ai + 1 > bound) &&
      ((function.instructions[ai]?).any (assignsTempToSymbol · symbolName tempName) ||
        findValueAssign function symbolName tempName bound ai)

/-- `instruction_index - 8`, which wraps around below 8. -/
def searchBound (i : Nat) : Nat := if 8 ≤ i then i - 8 else i + 2 ^ 64 - 8

/-- The operand that the fused code compares. -/
def comparedOperand (function : IRFunction) (i : Nat) (compare assign : IRInstruction) :
    IROperand :=
  match compare.lhs, assign.lhs with
  | .symbol symbolName, .temp tempName =>
    if findValueAssign function symbolName tempName (searchBound i) i && isSymbol compare.rhs then
      assign.lhs
    else compare.lhs
  | lhs, _ => lhs

/-- `code_generator_binary_try_emit_compare_assign_diamond`: compare, load the destination and
the value, move conditionally, store. -/
def emitCompareAssignDiamond (frame : Frame) (function : IRFunction) (i : Nat)
    (compare assign : IRInstruction) : Option Frame := do
  let op ← compare.text
  let cmov ← compareTrueCmov op
  let compareForEmit := { compare with lhs := comparedOperand function i compare assign }
  let flags ← emitCompareFlags context frame i compareForEmit
  let rax ← emitOperandLoad context frame assign.dest
  let r10 ← emitOperandLoad context frame assign.lhs
  emitDestinationStore context frame assign.dest (if conditionHolds cmov flags then r10 else rax)

-- ---
-- Agreement
-- ---

/-- What a temp or a symbol holds: a word, or a record. -/
def held (frame : Frame) : IROperand → Word × List Word
  | .temp name => (frame.temps name, [])
  | .symbol name =>
    let place := storageOf context.symbolAliases name
    match context.storage place with
    | .scalar bytes signed => (extendScalar bytes signed (frame.slots place), [])
    | .register _ => (frame.slots place, [])
    | .string | .aggregate => frame.records (context.recordAddress place)
  | _ => (0, [])

/-- The reads of a later instruction; a symbol may also be read by another function. -/
def ReadLater (function : IRFunction) (i : Nat) : IROperand → Prop
  | .temp name => ∃ j c, function.instructions[j]? = some c ∧ (j < i ∨ i + 6 ≤ j) ∧
      IROperand.temp name ∈ c.reads
  | .symbol _ => True
  | _ => False

/-- A jump or a branch to the label. -/
def jumpsTo (instruction : IRInstruction) (label : Option String) : Prop :=
  (instruction.op = .jump ∨ instruction.op = .branchZero ∨ instruction.op = .branchEq) ∧
    label.isSome = true ∧ instruction.text = label

/-- The code for the six instructions at `i` can be replaced by the fused code. -/
structure DiamondAgrees (function : IRFunction) (i : Nat) (frame : Frame) : Prop where
  values : ∀ compare branch assign fused, function.instructions[i]? = some compare →
    function.instructions[i + 1]? = some branch → function.instructions[i + 2]? = some assign →
    emitCompareAssignDiamond context frame function i compare assign = some fused →
    ∃ executed, executeDiamond context frame i compare branch assign = some executed ∧
      ∀ operand, ReadLater function i operand →
        held context fused operand = held context executed operand
  -- nothing else jumps to the labels that are left out
  labels : ∀ falseLabel endLabel j c, function.instructions[i + 4]? = some falseLabel →
    function.instructions[i + 5]? = some endLabel → function.instructions[j]? = some c →
    (jumpsTo c falseLabel.text → j = i + 1) ∧ (jumpsTo c endLabel.text → j = i + 3)

-- ---
-- The states in which the fused code is right
-- ---

/-- The relation of two numbers that a comparison is about. -/
def Related (op : String) (a b : Int) : Prop :=
  if op = "==" then a = b
  else if op = "!=" then a ≠ b
  else if op = "<" then a < b
  else if op = "<=" then a ≤ b
  else if op = ">" then b < a
  else b ≤ a

instance (op : String) (a b : Int) : Decidable (Related op a b) := by
  unfold Related
  infer_instance

/-- The signed number that a word stands for in a comparison of 4 or of 8 bytes. -/
def numberAt (width : Nat) (w : Word) : Int :=
  if width = 4 then (w.setWidth 32).toInt else w.toInt

/-- A comparison with a small constant looks at the whole word. -/
def comparedWidth (i : Nat) (compare : IRInstruction) : Nat :=
  if (immediate32 compare.rhs).isSome ∨
      isEquality compare.text = true ∧ (immediate32 compare.lhs).isSome then 8
  else instructionCompareWidth context i compare

/-- Two symbols are compared, and one of the eight instructions in front of the comparison copies
the temp that is assigned to the first of them. -/
def CopiedBefore (function : IRFunction) (i : Nat) (compare assign : IRInstruction) : Prop :=
  8 ≤ i ∧ isSymbol compare.rhs = true ∧ ∃ x t, compare.lhs = .symbol x ∧ assign.lhs = .temp t ∧
    ∃ j < i, i ≤ j + 8 ∧ (function.instructions[j]?).any (assignsTempToSymbol · x t) = true

/-- The words of a state that a fused diamond is about. -/
structure DiamondWords where
  -- what the comparison compares
  lhs : Word
  rhs : Word
  -- what the destination holds, as it is loaded
  old : Word
  -- what is assigned: as it is loaded, and as the destination takes it
  raw : Word
  assigned : Word

/-- The words in front of the diamond. -/
def diamondWords (frame : Frame) (compare assign : IRInstruction) : Option DiamondWords := do
  let lhs ← emitOperandLoad context frame compare.lhs
  let rhs ← emitOperandLoad context frame compare.rhs
  let old ← emitOperandLoad context frame assign.dest
  let raw ← emitOperandLoad context frame assign.lhs
  let assigned ← assignedValue context frame assign
  some { lhs, rhs, old, raw, assigned }

/-- What a destination keeps of a word that is stored in it. -/
def kept (frame : Frame) (destination : IROperand) (w : Word) : Word × List Word :=
  match destination with
  | .temp _ => (w, [])
  | .symbol name =>
    match context.storage name with
    | .scalar bytes signed => (extendScalar bytes signed w, [])
    | .register narrow => (registerMove narrow w, [])
    | .string => frame.records w
    | .aggregate => (w, (frame.records (context.recordAddress name)).2)
  | _ => (0, [])

/-- What the destination of an assignment is to hold. -/
def assignedContent (frame : Frame) (assign : IRInstruction) (w : Word) : Word × List Word :=
  if copiesReturned context assign then frame.records w
  else if loadsIntoRegister context assign then (w, [])
  else kept context frame assign.dest w

/-- The comparison holds in the state. -/
def Compares (i : Nat) (compare : IRInstruction) (op : String) (words : DiamondWords) : Prop :=
  Related op (numberAt (comparedWidth context i compare) words.lhs)
    (numberAt (comparedWidth context i compare) words.rhs)

/-- The comparison would hold between the words in place of its own: the assigned temp, if it was
copied to the compared symbol, and registers as they stand. -/
def ComparesInstead (frame : Frame) (function : IRFunction) (i : Nat)
    (compare assign : IRInstruction) (op : String) : Prop :=
  ∃ lhs x y, (CopiedBefore function i compare assign ∧ lhs = assign.lhs ∨
      ¬ CopiedBefore function i compare assign ∧ lhs = compare.lhs) ∧
    compareOperand context frame lhs = some x ∧ compareOperand context frame compare.rhs = some y ∧
    Related op (numberAt (comparedWidth context i { compare with lhs }) x)
      (numberAt (comparedWidth context i { compare with lhs }) y)
/-- A register holds a word of the type that it is moved by. -/
def RegisterHolds (frame : Frame) (destination : IROperand) : Prop :=
  match destination with
  | .symbol x =>
    match context.storage x with
    | .register narrow => registerMove narrow (frame.slots x) = frame.slots x
    | _ => True
  | _ => True

/-- The destination is read later, from its own storage. -/
def Needed (function : IRFunction) (i : Nat) (compare assign : IRInstruction) : Prop :=
  ReadLater function i assign.dest ∧ assign.dest ≠ compare.dest ∧
    storageOperand context.symbolAliases assign.dest = assign.dest

/-- The words of a state with which the fused code is right. -/
structure DiamondSafe (frame : Frame) (function : IRFunction) (i : Nat)
    (compare assign : IRInstruction) (op : String) (words : DiamondWords) : Prop where
  -- the words that are compared instead stand in the same relation, or the destination holds
  -- what it is to hold
  compared : Needed context function i compare assign → (Compares context i compare op words ↔
        ComparesInstead context frame function i compare assign op) ∨
      (Compares context i compare op words → kept context frame assign.dest words.old =
            assignedContent context frame assign words.assigned) ∧
        (¬ Compares context i compare op words →
          kept context frame assign.dest words.raw = held context frame assign.dest)
  -- the assigned word needs no conversion
  value : Needed context function i compare assign → Compares context i compare op words →
    ComparesInstead context frame function i compare assign op →
    kept context frame assign.dest words.raw = assignedContent context frame assign words.assigned
  -- a register that is written back holds a word of its type
  restored : Needed context function i compare assign → ¬ Compares context i compare op words →
    ¬ ComparesInstead context frame function i compare assign op →
    RegisterHolds context frame assign.dest
  -- the temp of the comparison, which the fused code does not write, is not read by a vector
  -- kernel, or holds the outcome already
  unwritten : ReadLater function i compare.dest → assign.dest ≠ compare.dest →
    (Compares context i compare op words → held context frame compare.dest = (1, [])) ∧
      (¬ Compares context i compare op words → held context frame compare.dest = (0, []))
  overwritten : ReadLater function i compare.dest → assign.dest = compare.dest →
    ∀ w, (ComparesInstead context frame function i compare assign op → w = words.raw) →
      (¬ ComparesInstead context frame function i compare assign op → w = words.old) →
      (Compares context i compare op words → w = words.assigned) ∧
        (¬ Compares context i compare op words → w = 0)

/-- The states in which the fused code is right. -/
def DiamondCondition (function : IRFunction) (i : Nat) (frame : Frame) : Prop :=
  ∀ compare assign op words, function.instructions[i]? = some compare →
    function.instructions[i + 2]? = some assign →
    isTemp assign.dest = true ∨ isSymbol assign.dest = true →
    compare.text = some op → diamondWords context frame compare assign = some words →
    DiamondSafe context frame function i compare assign op words

-- ---
-- What the flags say
-- ---

section Flags

variable {context} {flags : Flags} {op : String} {compare : IRInstruction}

theorem bne_decide_eq {A B C D : Prop} [Decidable A] [Decidable B] [Decidable C] [Decidable D]
    (h : (A ↔ ¬ (B ∨ C)) ↔ D) : (decide A != (decide B || decide C)) = decide D := by
  by_cases hA : A <;> by_cases hB : B <;> by_cases hC : C <;> simp_all

theorem cmpRegReg_less {n : Nat} (hn : n = 32 ∨ n = 64) (x y : BitVec n) :
    ((cmpRegReg x y).sign != (cmpRegReg x y).overflow) = decide (x.toInt < y.toInt) := by
  have hSign : (x - y).msb = decide ((x - y).toInt < 0) := BitVec.msb_eq_toInt
  have hx := x.toInt_lt
  have hx' := x.le_toInt
  have hy := y.toInt_lt
  have hy' := y.le_toInt
  have hDifference : (x - y).toInt % 2 ^ n = (x.toInt - y.toInt) % 2 ^ n := by
    rw [BitVec.toInt_sub]
    exact Int.bmod_emod
  have hd := (x - y).toInt_lt
  have hd' := (x - y).le_toInt
  simp only [cmpRegReg, hSign, BitVec.ssubOverflow]
  generalize (x - y).toInt = d at *
  generalize x.toInt = s at *
  generalize y.toInt = t at *
  refine bne_decide_eq ?_
  rcases hn with rfl | rfl <;> constructor <;> omega

/-- A comparison with 0 sets the flags of a plain comparison. -/
theorem cmpRegImm32_eq (w : Word) (immediate : Int) :
    cmpRegImm32 w immediate = emitRegRegCompare w (BitVec.ofInt 64 immediate) 8 := by
  unfold cmpRegImm32 emitRegRegCompare
  rw [if_neg (show ¬ 8 = 4 by decide)]
  split
  · rename_i hZero
    subst hZero
    have hOverflow : BitVec.ssubOverflow w (BitVec.ofInt 64 0) = false := by
      have hLow := w.le_toInt
      have hHigh := w.toInt_lt
      simp only [BitVec.ssubOverflow, show (BitVec.ofInt 64 0 : Word).toInt = 0 from rfl,
        Bool.or_eq_false_iff, decide_eq_false_iff_not]
      omega
    rw [cmpRegReg, hOverflow, show (BitVec.ofInt 64 0 : Word) = 0#64 from rfl, BitVec.sub_zero]
    rfl
  · rfl

/-- The conditions, by what the flags say about equality and order. -/
structure Conditions (flags : Flags) (E L : Prop) [Decidable E] [Decidable L] : Prop where
  equal : conditionHolds 0x4 flags = decide E
  notEqual : conditionHolds 0x5 flags = decide (¬ E)
  less : conditionHolds 0xC flags = decide L
  notLess : conditionHolds 0xD flags = decide (¬ L)
  lessEqual : conditionHolds 0xE flags = decide (L ∨ E)
  greater : conditionHolds 0xF flags = decide (¬ (L ∨ E))

theorem conditions_of_flags {E L : Prop} [Decidable E] [Decidable L]
    (hZero : flags.zero = decide E) (hLess : (flags.sign != flags.overflow) = decide L) :
    Conditions flags E L := by
  have hNotLess : (flags.sign == flags.overflow) = !decide L := by
    rw [← hLess, bne, Bool.not_not]
  refine ⟨hZero, ?_, hLess, ?_, ?_, ?_⟩
  · show (!flags.zero) = _
    rw [hZero, decide_not]
  · show (flags.sign == flags.overflow) = _
    rw [hNotLess, decide_not]
  · show (flags.zero || flags.sign != flags.overflow) = _
    rw [hZero, hLess, Bool.decide_or, Bool.or_comm]
  · show (!flags.zero && flags.sign == flags.overflow) = _
    rw [hZero, hNotLess, decide_not, Bool.decide_or, Bool.not_or, Bool.and_comm]

/-- The flags of a comparison of two words are about the numbers they stand for. -/
theorem regRegCompare_conditions (width : Nat) (x y : Word) :
    Conditions (emitRegRegCompare x y width) (numberAt width x = numberAt width y)
      (numberAt width x < numberAt width y) := by
  unfold emitRegRegCompare numberAt
  split
  · refine conditions_of_flags ?_ (cmpRegReg_less (Or.inl rfl) _ _)
    simp only [cmpRegReg, BitVec.toInt_inj]
    rfl
  · refine conditions_of_flags ?_ (cmpRegReg_less (Or.inr rfl) _ _)
    simp only [cmpRegReg, BitVec.toInt_inj]
    rfl

/-- The opcode of a comparison, for `setcc` and for `cmovcc`, asks for its relation. -/
theorem related_of_conditions {a b : Int} {opcode : Nat} (hFlags : Conditions flags (a = b) (a < b))
    (hOpcode : compareSetcc op = some opcode ∨ compareTrueCmov op = some opcode) :
    conditionHolds opcode flags = true ↔ Related op a b := by
  have hHolds : ∀ {code : Nat} {P : Prop} [Decidable P], conditionHolds code flags = decide P →
      code % 16 = opcode % 16 → (conditionHolds opcode flags = true ↔ P) := by
    intro code P _ hCode hSame
    rw [show conditionHolds opcode flags = conditionHolds code flags by
      unfold conditionHolds
      rw [hSame], hCode, decide_eq_true_eq]
  unfold compareSetcc compareTrueCmov at hOpcode
  unfold Related
  split_ifs at hOpcode ⊢
  all_goals simp only [some.injEq, false_or] at hOpcode
  · exact hHolds hFlags.equal (by rcases hOpcode with rfl | rfl <;> rfl)
  · exact hHolds hFlags.notEqual (by rcases hOpcode with rfl | rfl <;> rfl)
  · exact hHolds hFlags.less (by rcases hOpcode with rfl | rfl <;> rfl)
  · refine (hHolds hFlags.lessEqual (by rcases hOpcode with rfl | rfl <;> rfl)).trans ?_
    exact Int.le_iff_lt_or_eq.symm
  · refine (hHolds hFlags.greater (by rcases hOpcode with rfl | rfl <;> rfl)).trans ?_
    omega
  · refine (hHolds hFlags.notLess (by rcases hOpcode with rfl | rfl <;> rfl)).trans ?_
    omega

variable (context) in
/-- The flags of a comparison, over the words that its operands have. -/
theorem compareFlagsWith_spec {load : IROperand → Option Word} {i opcode : Nat}
    (hInt : ∀ intValue, load (.int intValue) = some (BitVec.ofInt 64 intValue))
    (hText : compare.text = some op)
    (hOpcode : compareSetcc op = some opcode ∨ compareTrueCmov op = some opcode)
    (h : compareFlagsWith load (instructionCompareWidth context i compare) compare = some flags) :
    ∃ x y, load compare.lhs = some x ∧ load compare.rhs = some y ∧
      (conditionHolds opcode flags = true ↔
        Related op (numberAt (comparedWidth context i compare) x)
          (numberAt (comparedWidth context i compare) y)) := by
  have hImmediate : ∀ {operand : IROperand} {immediate : Int},
      immediate32 operand = some immediate → load operand = some (BitVec.ofInt 64 immediate) := by
    intro operand immediate hOperand
    cases operand with
    | int intValue =>
      simp only [immediate32] at hOperand
      split at hOperand <;> cases hOperand
      exact hInt _
    | _ => cases hOperand
  unfold compareFlagsWith at h
  have hWhole : ((immediate32 compare.rhs).isSome ∨
      isEquality compare.text = true ∧ (immediate32 compare.lhs).isSome) →
      comparedWidth context i compare = 8 := fun hSome => if_pos hSome
  cases hRhs : immediate32 compare.rhs with
  | some immediate =>
    rw [hRhs] at h
    obtain ⟨x, hx, rfl⟩ := map_eq_some_iff.mp h
    refine ⟨x, _, hx, hImmediate hRhs, ?_⟩
    rw [hWhole (Or.inl (by rw [hRhs]; rfl)), cmpRegImm32_eq]
    exact related_of_conditions (regRegCompare_conditions 8 x _) hOpcode
  | none =>
    rw [hRhs] at h
    cases hLhs : (if isEquality compare.text then immediate32 compare.lhs else none) with
    | some immediate =>
      rw [hLhs] at h
      obtain ⟨y, hy, rfl⟩ := map_eq_some_iff.mp h
      -- only an equality takes the immediate on the left, with the sides the other way round
      have hEquality : isEquality compare.text = true := by
        by_contra hNot
        rw [if_neg hNot] at hLhs
        cases hLhs
      rw [if_pos hEquality] at hLhs
      refine ⟨_, y, hImmediate hLhs, hy, ?_⟩
      rw [hWhole (Or.inr ⟨hEquality, by rw [hLhs]; rfl⟩), cmpRegImm32_eq,
        related_of_conditions (regRegCompare_conditions 8 y _) hOpcode]
      simp only [hText, isEquality, Bool.or_eq_true, beq_iff_eq, some.injEq] at hEquality
      rcases hEquality with rfl | rfl
      · simp only [Related, if_true]
        exact eq_comm
      · simp only [Related, String.reduceEq, if_false, if_true]
        exact ne_comm
    | none =>
      rw [hLhs] at h
      dsimp only at h
      split at h
      · rename_i x y hx hy
        cases h
        refine ⟨x, y, hx, hy, ?_⟩
        rw [comparedWidth, if_neg]
        · exact related_of_conditions (regRegCompare_conditions _ x y) hOpcode
        · rintro (hSome | ⟨hEquality, hSome⟩)
          · rw [hRhs] at hSome
            cases hSome
          · rw [if_pos hEquality] at hLhs
            rw [hLhs] at hSome
            cases hSome
      · cases h

theorem compareFlagsWith_isSome {load : IROperand → Option Word} {width : Nat} {x y : Word}
    (hx : load compare.lhs = some x) (hy : load compare.rhs = some y) :
    ∃ flags, compareFlagsWith load width compare = some flags := by
  unfold compareFlagsWith
  rw [hx, hy]
  split
  · exact ⟨_, rfl⟩
  · split <;> exact ⟨_, rfl⟩

theorem compareTrueCmov_isSome (op : String) :
    (compareTrueCmov op).isSome = (compareSetcc op).isSome := by
  unfold compareSetcc compareTrueCmov
  split_ifs <;> rfl

end Flags

-- ---
-- Loads and stores
-- ---

variable {w : Word} {destination operand : IROperand} {t : String} {assign compare : IRInstruction}
  {frame : Frame} {function : IRFunction} {i : Nat}

section Slots

variable {context}

theorem setWidth_signExtend_of_le {n m : Nat} (h : n ≤ m) (x : BitVec n) :
    (x.signExtend m).setWidth n = x := by
  ext k hk
  rw [getElem_setWidth, getLsbD_signExtend]
  have hm : k < m := by omega
  simp [hm, hk]

theorem setWidth_setWidth_of_ge {n m : Nat} (h : n ≤ m) (x : BitVec n) :
    (x.setWidth m).setWidth n = x := by
  rw [setWidth_setWidth_of_le x h, setWidth_eq]

theorem extendScalar_wide {bytes : Nat} {signed : Bool} (h1 : bytes ≠ 1) (h2 : bytes ≠ 2)
    (h4 : bytes ≠ 4) : extendScalar bytes signed w = w := by
  unfold extendScalar
  split <;> first | rfl | contradiction

theorem extendScalar_idem (bytes : Nat) (signed : Bool) (w : Word) :
    extendScalar bytes signed (extendScalar bytes signed w) = extendScalar bytes signed w := by
  have hWidths : bytes = 1 ∨ bytes = 2 ∨ bytes = 4 ∨ (bytes ≠ 1 ∧ bytes ≠ 2 ∧ bytes ≠ 4) := by
    omega
  rcases hWidths with rfl | rfl | rfl | ⟨h1, h2, h4⟩
  · cases signed
    · exact congrArg (setWidth 64) (setWidth_setWidth_of_ge (show 8 ≤ 64 by decide) _)
    · exact congrArg (signExtend 64) (setWidth_signExtend_of_le (show 8 ≤ 64 by decide) _)
  · cases signed
    · exact congrArg (setWidth 64) (setWidth_setWidth_of_ge (show 16 ≤ 64 by decide) _)
    · exact congrArg (signExtend 64) (setWidth_signExtend_of_le (show 16 ≤ 64 by decide) _)
  · cases signed
    · exact congrArg (setWidth 64) (setWidth_setWidth_of_ge (show 32 ≤ 64 by decide) _)
    · exact congrArg (signExtend 64) (setWidth_signExtend_of_le (show 32 ≤ 64 by decide) _)
  · rw [extendScalar_wide h1 h2 h4, extendScalar_wide h1 h2 h4]

theorem registerMove_idem (narrow : Option Bool) (w : Word) :
    registerMove narrow (registerMove narrow w) = registerMove narrow w := by
  cases narrow with
  | none => rfl
  | some signed => exact extendScalar_idem 4 signed w

/-- Writing a temp changes that temp. -/
theorem held_updateTemp (operand : IROperand) :
    held context { frame with temps := Function.update frame.temps t w } operand =
      if operand = .temp t then (w, []) else held context frame operand := by
  cases operand with
  | temp name =>
    by_cases hEq : name = t
    · simp [held, hEq]
    · simp [held, hEq]
  | _ => simp [held]

/-- Writing a slot or a register changes the symbols that are read from it. -/
theorem held_updateSlot {name : String} (hScalar : (context.storage name).hasRecord = false)
    (operand : IROperand) :
    held context { frame with slots := Function.update frame.slots name w } operand =
      if storageOperand context.symbolAliases operand = .symbol name then
        (match context.storage name with
          | .scalar bytes signed => extendScalar bytes signed w
          | _ => w, [])
      else held context frame operand := by
  cases operand with
  | symbol x =>
    by_cases hEq : storageOf context.symbolAliases x = name
    · simp only [held, storageOperand, hEq, if_true, Function.update_self]
      cases hStorage : context.storage name <;> simp [hStorage, Storage.hasRecord] at hScalar ⊢
    · simp [held, storageOperand, hEq]
  | _ => simp [held, storageOperand]

/-- Writing a record changes the symbols that are read from it. -/
theorem held_updateRecord {name : String} {r : Word × List Word}
    (hRecord : (context.storage name).hasRecord = true) (operand : IROperand) :
    held context { frame with
        records := Function.update frame.records (context.recordAddress name) r } operand =
      if storageOperand context.symbolAliases operand = .symbol name then r
      else held context frame operand := by
  cases operand with
  | symbol x =>
    by_cases hEq : storageOf context.symbolAliases x = name
    · simp only [held, storageOperand, hEq, if_true, Function.update_self]
      cases hStorage : context.storage name <;> simp [hStorage, Storage.hasRecord] at hRecord ⊢
    · have hAddress : (context.storage (storageOf context.symbolAliases x)).hasRecord = true →
          context.recordAddress (storageOf context.symbolAliases x) ≠
            context.recordAddress name := fun hPlace hSame =>
        hEq (context.records_disjoint _ _ hPlace hRecord hSame)
      simp only [held, storageOperand, IROperand.symbol.injEq, if_neg hEq]
      cases hPlace : context.storage (storageOf context.symbolAliases x) <;>
        simp [hPlace, Storage.hasRecord] at hAddress ⊢
      all_goals rw [Function.update_of_ne hAddress]
  | _ => simp [held, storageOperand]

/-- What an operand holds is what its storage holds. -/
theorem held_storageOperand (operand : IROperand) :
    held context frame (storageOperand context.symbolAliases operand) =
      held context frame operand := by
  cases operand with
  | symbol x =>
    have hOwn := storageOf_of_none (storageOf_not_aliased context.aliases_ok x)
    simp only [storageOperand, held, hOwn]
  | _ => rfl

theorem storageOperand_eq_temp :
    storageOperand context.symbolAliases operand = .temp t ↔ operand = .temp t := by
  cases operand <;> simp [storageOperand]

/-- A store changes what is read from its destination. -/
theorem held_store {frame' : Frame}
    (h : emitDestinationStore context frame destination w = some frame') (operand : IROperand)
    (hNamed : isTemp destination = true ∨ isSymbol destination = true) :
    held context frame' operand =
      if storageOperand context.symbolAliases operand = destination then
        kept context frame destination w
      else held context frame operand := by
  cases destination with
  | temp name =>
    cases h
    rw [held_updateTemp]
    simp only [storageOperand_eq_temp]
    rfl
  | symbol name =>
    simp only [emitDestinationStore, kept] at h ⊢
    cases hStorage : context.storage name with
    | scalar bytes signed =>
      rw [hStorage] at h
      cases h
      rw [held_updateSlot (by rw [hStorage]; rfl), hStorage]
    | register narrow =>
      rw [hStorage] at h
      cases h
      rw [held_updateSlot (by rw [hStorage]; rfl), hStorage]
    | string =>
      rw [hStorage] at h
      cases h
      exact held_updateRecord (by rw [hStorage]; rfl) operand
    | aggregate =>
      rw [hStorage] at h
      cases h
      exact held_updateRecord (by rw [hStorage]; rfl) operand
  | _ => rcases hNamed with h' | h' <;> cases h'

/-- The same for the store of an assignment. -/
theorem held_assignStore {frame' : Frame}
    (h : emitAssignStore context frame assign w = some frame') (operand : IROperand)
    (hNamed : isTemp assign.dest = true ∨ isSymbol assign.dest = true) :
    held context frame' operand =
      if storageOperand context.symbolAliases operand = assign.dest then
        assignedContent context frame assign w
      else held context frame operand := by
  unfold emitAssignStore at h
  unfold assignedContent
  split at h
  · rename_i name hDest
    split at h
    · rename_i hCopies
      cases h
      have hStorage : context.storage name = .aggregate := by
        unfold copiesReturned at hCopies
        split at hCopies
        · rename_i hName _
          cases hDest.symm.trans hName
          simpa using (Bool.and_eq_true_iff.mp hCopies).2
        · cases hCopies
      rw [held_updateRecord (by rw [hStorage]; rfl), if_pos hCopies, hDest]
    · rename_i hCopies
      split at h
      · rename_i hLoads
        cases h
        have hStorage : ∃ narrow, context.storage name = .register narrow := by
          simp only [loadsIntoRegister, hDest] at hLoads
          split at hLoads
          · exact ⟨_, ‹_›⟩
          · cases hLoads
        obtain ⟨narrow, hStorage⟩ := hStorage
        rw [held_updateSlot (by rw [hStorage]; rfl), if_neg hCopies, if_pos hLoads, hDest, hStorage]
      · rename_i hLoads
        rw [if_neg hCopies, if_neg hLoads]
        exact held_store h operand hNamed
  · rename_i hDest
    have hPlain : copiesReturned context assign = false ∧
        loadsIntoRegister context assign = false := by
      unfold copiesReturned loadsIntoRegister
      cases hd : assign.dest with
      | symbol name => exact absurd hd (hDest name)
      | _ => exact ⟨rfl, rfl⟩
    rw [hPlain.1, hPlain.2, if_neg Bool.false_ne_true, if_neg Bool.false_ne_true]
    exact held_store h operand hNamed

/-- Storing what was loaded leaves the destination as it is, but for a register that does not
hold a word of its type. -/
theorem kept_load {old : Word} (h : emitOperandLoad context frame destination = some old)
    (hOwn : storageOperand context.symbolAliases destination = destination)
    (hNamed : isTemp destination = true ∨ isSymbol destination = true) :
    kept context frame destination old = held context frame destination ↔
      RegisterHolds context frame destination := by
  cases destination with
  | temp name =>
    cases h
    simp [kept, held, RegisterHolds]
  | symbol name =>
    have hPlace : storageOf context.symbolAliases name = name := by
      simpa [storageOperand] using hOwn
    simp only [emitOperandLoad, hPlace] at h
    simp only [kept, held, hPlace, RegisterHolds]
    cases hStorage : context.storage name <;> rw [hStorage] at h <;> cases h
    · simp [extendScalar_idem]
    · simp [registerMove_idem]
    · simp
    · simp
  | _ => rcases hNamed with h' | h' <;> cases h'

theorem load_update (h : operand ≠ .temp t) :
    emitOperandLoad context { frame with temps := Function.update frame.temps t w } operand =
      emitOperandLoad context frame operand := by
  cases operand with
  | temp name =>
    have hNe : name ≠ t := fun hEq => h (by rw [hEq])
    simp [emitOperandLoad, Function.update_of_ne hNe]
  | _ => rfl

theorem assignedValue_update (h : assign.lhs ≠ .temp t) :
    assignedValue context { frame with temps := Function.update frame.temps t w } assign =
      assignedValue context frame assign := by
  unfold assignedValue emitCstringLoad
  rw [load_update h]

theorem assignedValue_some {raw : Word} (h : emitOperandLoad context frame assign.lhs = some raw) :
    ∃ v, assignedValue context frame assign = some v := by
  unfold assignedValue emitCstringLoad
  rw [h]
  split
  · exact ⟨_, rfl⟩
  · split
    · split
      · exact ⟨_, rfl⟩
      · exact ⟨_, rfl⟩
    · exact ⟨_, rfl⟩

end Slots

-- ---
-- The two codes
-- ---

section Codes

variable {context} {op : String} {words : DiamondWords} {branch : IRInstruction}

theorem findValueAssign_iff {symbolName tempName : String} {bound : Nat} (n : Nat) :
    findValueAssign function symbolName tempName bound n = true ↔ ∃ j < n, bound ≤ j ∧
        (function.instructions[j]?).any (assignsTempToSymbol · symbolName tempName) = true := by
  induction n with
  | zero => simp [findValueAssign]
  | succ ai ih =>
    simp only [findValueAssign, Bool.and_eq_true, decide_eq_true_eq, Bool.or_eq_true, ih]
    constructor
    · rintro ⟨hBound, hHere | ⟨j, hj, hRest⟩⟩
      · exact ⟨ai, Nat.lt_succ_self ai, Nat.le_of_lt_succ hBound, hHere⟩
      · exact ⟨j, Nat.lt_succ_of_lt hj, hRest⟩
    · rintro ⟨j, hj, hBound, hCopies⟩
      refine ⟨by omega, ?_⟩
      rcases Nat.lt_succ_iff_lt_or_eq.mp hj with hLt | rfl
      · exact Or.inr ⟨j, hLt, hBound, hCopies⟩
      · exact Or.inl hCopies

/-- The search finds a copy among the eight instructions in front, and nothing below index 8. -/
theorem comparedOperand_eq (function : IRFunction) (i : Nat) (compare assign : IRInstruction) :
    CopiedBefore function i compare assign ∧
        comparedOperand function i compare assign = assign.lhs ∨
      ¬ CopiedBefore function i compare assign ∧
        comparedOperand function i compare assign = compare.lhs := by
  have hSearch : ∀ x t, findValueAssign function x t (searchBound i) i = true ↔
      8 ≤ i ∧ ∃ j < i, i ≤ j + 8 ∧
        (function.instructions[j]?).any (assignsTempToSymbol · x t) = true := by
    intro x t
    rw [findValueAssign_iff]
    by_cases hEight : 8 ≤ i
    · have hBound : searchBound i = i - 8 := if_pos hEight
      simp only [hBound, Nat.sub_le_iff_le_add, hEight, true_and]
    · have hBound : searchBound i = i + 2 ^ 64 - 8 := if_neg hEight
      simp only [hBound, hEight, false_and, iff_false]
      rintro ⟨j, hj, hBound, -⟩
      omega
  unfold comparedOperand
  split
  · rename_i x t hLhs hAssign
    by_cases hFound : findValueAssign function x t (searchBound i) i = true ∧
        isSymbol compare.rhs = true
    · obtain ⟨hEight, hCopy⟩ := (hSearch x t).mp hFound.1
      rw [if_pos (Bool.and_eq_true_iff.mpr hFound)]
      exact Or.inl ⟨⟨hEight, hFound.2, x, t, hLhs, hAssign, hCopy⟩, rfl⟩
    · rw [if_neg fun h => hFound (Bool.and_eq_true_iff.mp h)]
      refine Or.inr ⟨?_, rfl⟩
      rintro ⟨hEight, hRhs, x', t', hLhs', hAssign', hCopy⟩
      cases hLhs.symm.trans hLhs'
      cases hAssign.symm.trans hAssign'
      exact hFound ⟨(hSearch x t).mpr ⟨hEight, hCopy⟩, hRhs⟩
  · rename_i hOther
    refine Or.inr ⟨?_, rfl⟩
    rintro ⟨-, -, x, t, hLhs, hAssign, -⟩
    exact hOther x t hLhs hAssign

theorem load_isSome (context : GeneratorContext) (frame : Frame) (operand : IROperand) :
    (∃ x, emitOperandLoad context frame operand = some x) ↔ ∀ name, operand ≠ .label name := by
  cases operand with
  | label name => simp [emitOperandLoad]
  | symbol name =>
    simp only [emitOperandLoad]
    cases context.storage (storageOf context.symbolAliases name) <;> simp
  | _ => simp [emitOperandLoad]

theorem compareOperand_isSome : (∃ x, compareOperand context frame operand = some x) ↔
      ∃ x, emitOperandLoad context frame operand = some x := by
  unfold compareOperand
  split
  · rename_i name
    split
    · exact iff_of_true ⟨_, rfl⟩ ((load_isSome context frame (.symbol name)).mpr (by simp))
    · rfl
  · rfl

theorem diamondWords_spec (h : diamondWords context frame compare assign = some words) :
    emitOperandLoad context frame compare.lhs = some words.lhs ∧
      emitOperandLoad context frame compare.rhs = some words.rhs ∧
      emitOperandLoad context frame assign.dest = some words.old ∧
      emitOperandLoad context frame assign.lhs = some words.raw ∧
      assignedValue context frame assign = some words.assigned := by
  unfold diamondWords at h
  simp only [bind_eq_bind, bind_eq_some_iff] at h
  obtain ⟨lhs, hLhs, rhs, hRhs, old, hOld, raw, hRaw, assigned, hAssigned, hEq⟩ := h
  cases hEq
  exact ⟨hLhs, hRhs, hOld, hRaw, hAssigned⟩

variable (function i) in
/-- The fused code stores the assigned word if the words compared instead stand in the relation,
and else what it loaded from the destination. -/
theorem emitCompareAssignDiamond_eq {cmov : Nat} (hText : compare.text = some op)
    (hCmov : compareTrueCmov op = some cmov)
    (hWords : diamondWords context frame compare assign = some words) :
    ∃ c' : Bool, (c' = true ↔ ComparesInstead context frame function i compare assign op) ∧
      emitCompareAssignDiamond context frame function i compare assign =
        emitDestinationStore context frame assign.dest (if c' then words.raw else words.old) := by
  obtain ⟨hLhs, hRhs, hOld, hRaw, -⟩ := diamondWords_spec hWords
  have hOperand := comparedOperand_eq function i compare assign
  generalize hInstead : comparedOperand function i compare assign = lhs at hOperand
  obtain ⟨x, hx⟩ : ∃ x, compareOperand context frame lhs = some x := by
    refine compareOperand_isSome.mpr ?_
    rcases hOperand with ⟨-, rfl⟩ | ⟨-, rfl⟩
    · exact ⟨_, hRaw⟩
    · exact ⟨_, hLhs⟩
  obtain ⟨y, hy⟩ := compareOperand_isSome.mpr ⟨_, hRhs⟩
  obtain ⟨flags, hFlags⟩ : ∃ flags,
      emitCompareFlags context frame i { compare with lhs } = some flags :=
    compareFlagsWith_isSome hx hy
  obtain ⟨x', y', hx', hy', hHolds⟩ := compareFlagsWith_spec context
    (fun _ => rfl) (show ({ compare with lhs } : IRInstruction).text = some op from hText)
    (Or.inr hCmov) hFlags
  cases hx.symm.trans hx'
  cases hy.symm.trans hy'
  refine ⟨conditionHolds cmov flags, hHolds.trans ?_, ?_⟩
  · constructor
    · intro hRelated
      exact ⟨lhs, x, y, hOperand, hx, hy, hRelated⟩
    · rintro ⟨lhs', u, v, hOperand', hu, hv, hRelated⟩
      have hSame : lhs' = lhs := by
        rcases hOperand with ⟨hCopied, rfl⟩ | ⟨hNot, rfl⟩
        · rcases hOperand' with ⟨-, hEq⟩ | ⟨hNot, -⟩
          · exact hEq
          · exact absurd hCopied hNot
        · rcases hOperand' with ⟨hCopied, -⟩ | ⟨-, hEq⟩
          · exact absurd hCopied hNot
          · exact hEq
      subst hSame
      cases hx.symm.trans hu
      cases hy.symm.trans hv
      exact hRelated
  · unfold emitCompareAssignDiamond
    rw [hInstead]
    simp only [bind_eq_bind, hText, hCmov, bind_some]
    rw [← hText, hFlags, hOld, hRaw]
    rfl

/-- Fused code is emitted for comparisons of loadable operands only. -/
theorem diamondWords_of_emitted {fused : Frame}
    (h : emitCompareAssignDiamond context frame function i compare assign = some fused) :
    ∃ op cmov words, compare.text = some op ∧ compareTrueCmov op = some cmov ∧
      diamondWords context frame compare assign = some words := by
  unfold emitCompareAssignDiamond at h
  simp only [bind_eq_bind, bind_eq_some_iff] at h
  obtain ⟨op, hText, cmov, hCmov, flags, hFlags, old, hOld, raw, hRaw, -⟩ := h
  obtain ⟨x, y, hx, hy, -⟩ := compareFlagsWith_spec context (fun _ => rfl)
    (show ({ compare with lhs := comparedOperand function i compare assign } :
      IRInstruction).text = some op from hText) (Or.inr hCmov) hFlags
  obtain ⟨lhs, hLhs⟩ : ∃ lhs, emitOperandLoad context frame compare.lhs = some lhs := by
    rcases comparedOperand_eq function i compare assign with ⟨hCopied, -⟩ | ⟨-, hSame⟩
    · obtain ⟨-, -, name, -, hSymbol, -⟩ := hCopied
      exact (load_isSome context frame _).mpr (by simp [hSymbol])
    · exact compareOperand_isSome.mp ⟨x, by rw [← hSame]; exact hx⟩
  obtain ⟨rhs, hRhs⟩ := compareOperand_isSome.mp ⟨y, hy⟩
  obtain ⟨assigned, hAssigned⟩ := assignedValue_some hRaw
  refine ⟨op, cmov, { lhs, rhs, old, raw, assigned }, hText, hCmov, ?_⟩
  simp only [diamondWords, hLhs, hRhs, hOld, hRaw, hAssigned, bind_eq_bind, bind_some]

/-- The six instructions set the temp of the comparison and assign if it holds. -/
theorem executeDiamond_eq {cmov : Nat} (hText : compare.text = some op)
    (hCmov : compareTrueCmov op = some cmov)
    (hWords : diamondWords context frame compare assign = some words)
    (hDest : compare.dest = .temp t) (hBranch : branch.lhs = .temp t) :
    ∃ c : Bool, (c = true ↔ Compares context i compare op words) ∧
      executeDiamond context frame i compare branch assign =
        if c then emitAssign context { frame with temps := Function.update frame.temps t 1 } assign
        else some { frame with temps := Function.update frame.temps t 0 } := by
  obtain ⟨hLhs, hRhs, -⟩ := diamondWords_spec hWords
  obtain ⟨setcc, hSetcc⟩ : ∃ setcc, compareSetcc op = some setcc := by
    rw [← isSome_iff_exists, ← compareTrueCmov_isSome, hCmov]
    rfl
  obtain ⟨flags, hFlags⟩ : ∃ flags, emitBinaryCompare context frame i compare = some flags :=
    compareFlagsWith_isSome hLhs hRhs
  obtain ⟨x, y, hx, hy, hHolds⟩ := compareFlagsWith_spec context (fun _ => rfl) hText
    (Or.inl hSetcc) hFlags
  cases hLhs.symm.trans hx
  cases hRhs.symm.trans hy
  refine ⟨conditionHolds setcc flags, hHolds, ?_⟩
  unfold executeDiamond
  simp only [hText, hSetcc, hFlags, hDest, hBranch, emitDestinationStore, emitOperandLoad,
    bind_eq_bind, bind_some, Function.update_self]
  cases conditionHolds setcc flags with
  | true => simp
  | false => simp

/-- Nothing is read from the own storage of the destination of an elided copy. -/
theorem storageOperand_ne_elided (h : isElidedCopy context.symbolAliases assign = true)
    (operand : IROperand) : storageOperand context.symbolAliases operand ≠ assign.dest := by
  unfold isElidedCopy at h
  split at h
  · rename_i name target _ hDest _
    rw [hDest]
    intro hEq
    cases operand with
    | symbol x =>
      have hName : storageOf context.symbolAliases x = name := by
        simpa [storageOperand] using hEq
      have hNone := storageOf_not_aliased context.aliases_ok x
      rw [hName, beq_iff_eq.mp h] at hNone
      cases hNone
    | _ => cases hEq
  · cases h

variable (context) in
theorem store_isSome (h : isTemp destination = true ∨ isSymbol destination = true)
    (frame : Frame) (w : Word) :
    ∃ frame', emitDestinationStore context frame destination w = some frame' := by
  cases destination with
  | temp name => exact ⟨_, rfl⟩
  | symbol name =>
    simp only [emitDestinationStore]
    cases context.storage name <;> exact ⟨_, rfl⟩
  | _ => rcases h with h | h <;> cases h

variable (context) in
theorem assignStore_isSome (h : isTemp assign.dest = true ∨ isSymbol assign.dest = true)
    (frame : Frame) (w : Word) :
    ∃ frame', emitAssignStore context frame assign w = some frame' := by
  unfold emitAssignStore
  split
  · split_ifs
    · exact ⟨_, rfl⟩
    · exact ⟨_, rfl⟩
    · exact store_isSome context h frame w
  · exact store_isSome context h frame w

theorem named_of_emitted {fused : Frame}
    (h : emitCompareAssignDiamond context frame function i compare assign = some fused)
    (hNone : assign.dest ≠ .none) : isTemp assign.dest = true ∨ isSymbol assign.dest = true := by
  unfold emitCompareAssignDiamond at h
  simp only [bind_eq_bind, bind_eq_some_iff] at h
  obtain ⟨op, -, cmov, -, flags, -, old, -, raw, -, hStore⟩ := h
  cases hDest : assign.dest with
  | none => exact absurd hDest hNone
  | temp name => exact Or.inl rfl
  | symbol name => exact Or.inr rfl
  | _ =>
    rw [hDest] at hStore
    cases hStore

theorem compareTrueCmov_of_operator (h : isCompareOperator (some op) = true) :
    ∃ cmov, compareTrueCmov op = some cmov := by
  unfold compareTrueCmov
  simp only [isCompareOperator, Bool.or_eq_true, beq_iff_eq, some.injEq] at h
  split_ifs <;> first | exact ⟨_, rfl⟩ | simp_all

end Codes

-- ---
-- The fused code against the six instructions
-- ---

/-- What the matcher has checked. -/
structure Diamond (function : IRFunction) (i : Nat) where
  compare : IRInstruction
  branch : IRInstruction
  assign : IRInstruction
  jump : IRInstruction
  falseLabel : IRInstruction
  endLabel : IRInstruction
  temp : String
  compare_at : function.instructions[i]? = some compare
  branch_at : function.instructions[i + 1]? = some branch
  assign_at : function.instructions[i + 2]? = some assign
  jump_at : function.instructions[i + 3]? = some jump
  falseLabel_at : function.instructions[i + 4]? = some falseLabel
  endLabel_at : function.instructions[i + 5]? = some endLabel
  operator : isCompareOperator compare.text = true
  dest : compare.dest = .temp temp
  tested : branch.lhs = .temp temp
  once : functionTempUseCount function temp = 1
  assign_op : assign.op = .assign
  assign_dest : assign.dest ≠ .none
  branch_jumps : jumpsTo branch falseLabel.text
  jump_jumps : jumpsTo jump endLabel.text
  falseLabel_once : ∀ label, falseLabel.text = some label → labelReferenceCount function label = 1
  endLabel_once : ∀ label, endLabel.text = some label → labelReferenceCount function label = 1

theorem diamond_of_matches (h : matchesCompareAssignDiamond function i = true)
    : Nonempty (Diamond function i) := by
  unfold matchesCompareAssignDiamond at h
  split at h
  · rename_i compare branch assign jump falseLabel endLabel hC hB hA hJ hF hE
    simp only [Bool.and_eq_true, beq_iff_eq, bne_iff_ne] at h
    obtain ⟨⟨⟨⟨⟨⟨⟨⟨⟨⟨⟨⟨⟨⟨⟨hSingle, hOperator⟩, hBranchOp⟩, hBranchText⟩, hUses⟩, hAssignOp⟩, hAssignDest⟩, -⟩,
      hJumpOp⟩, hJumpText⟩, -⟩, -⟩, hFalse⟩, hEnd⟩, hFalseOnce⟩, hEndOnce⟩ := h
    unfold isSingleUseBinary at hSingle
    rw [Bool.and_eq_true] at hSingle
    have hSingle := hSingle.2
    split at hSingle
    · rename_i t hDest
      unfold usesResultOf at hUses
      rw [Bool.and_eq_true, beq_iff_eq] at hUses
      exact ⟨{
        compare := compare, branch := branch, assign := assign, jump := jump,
        falseLabel := falseLabel, endLabel := endLabel, temp := t,
        compare_at := hC, branch_at := hB, assign_at := hA, jump_at := hJ, falseLabel_at := hF,
        endLabel_at := hE, operator := hOperator, dest := hDest, tested := hUses.2.trans hDest,
        once := beq_iff_eq.mp hSingle, assign_op := hAssignOp, assign_dest := hAssignDest,
        branch_jumps := ⟨Or.inr (Or.inl hBranchOp), by rw [← hFalse]; exact hBranchText, hFalse⟩,
        jump_jumps := ⟨Or.inl hJumpOp, by rw [← hEnd]; exact hJumpText, hEnd⟩,
        falseLabel_once := fun label hText => by rw [hText] at hFalseOnce; exact hFalseOnce,
        endLabel_once := fun label hText => by rw [hText] at hEndOnce; exact hEndOnce }⟩
    · cases hSingle
  · cases h

variable (d : Diamond function i)

section Agreement

variable {context} {function : IRFunction} {i : Nat}

theorem two_le_countP {α : Type} {p : α → Bool} {l : List α} {j k : Nat} {a b : α}
    (hLt : j < k) (ha : l[j]? = some a) (hb : l[k]? = some b) (hpa : p a = true)
    (hpb : p b = true) : 2 ≤ l.countP p := by
  have hFirst : 0 < (l.take k).countP p := by
    refine countP_pos_iff.mpr ⟨a, ?_, hpa⟩
    refine mem_of_getElem? (i := j) ?_
    rw [getElem?_take, if_pos hLt, ha]
  have hSecond : 0 < (l.drop k).countP p := by
    refine countP_pos_iff.mpr ⟨b, ?_, hpb⟩
    refine mem_of_getElem? (i := 0) ?_
    rw [getElem?_drop, Nat.add_zero, hb]
  rw [← take_append_drop k l, countP_append]
  omega

theorem eq_of_referenced_once {label : Option String} {j k : Nat} {c d : IRInstruction}
    (hOnce : ∀ name, label = some name → labelReferenceCount function name = 1)
    (hc : function.instructions[j]? = some c) (hd : function.instructions[k]? = some d)
    (hJumpC : jumpsTo c label) (hJumpD : jumpsTo d label) : j = k := by
  obtain ⟨name, rfl⟩ := isSome_iff_exists.mp hJumpC.2.1
  have hCount := hOnce name rfl
  let refers : IRInstruction → Bool := fun instruction =>
    instruction.text == some name &&
      (instruction.op == .jump || instruction.op == .branchZero || instruction.op == .branchEq)
  have hRefers : ∀ {e : IRInstruction}, jumpsTo e (some name) → refers e = true := by
    rintro e ⟨hOp, -, hText⟩
    rcases hOp with h | h | h <;> simp [refers, h, hText]
  rcases Nat.lt_trichotomy j k with hLt | hEq | hGt
  · have hTwo : 2 ≤ labelReferenceCount function name :=
      two_le_countP hLt hc hd (hRefers hJumpC) (hRefers hJumpD)
    omega
  · exact hEq
  · have hTwo : 2 ≤ labelReferenceCount function name :=
      two_le_countP hGt hd hc (hRefers hJumpD) (hRefers hJumpC)
    omega

theorem Diamond.assign_lhs : d.assign.lhs ≠ .temp d.temp := by
  intro hEq
  have hUseAssign : instructionTempUseCount d.assign d.temp ≠ 0 :=
    useCount_lhs hEq
  have hUseBranch : instructionTempUseCount d.branch d.temp ≠ 0 :=
    useCount_lhs d.tested
  have := eq_of_used_once d.once d.assign_at hUseAssign d.branch_at hUseBranch
  omega

/-- What the six instructions leave: the outcome in the temp of the comparison, and the assigned
value where the destination is read from. -/
theorem Diamond.executed {op : String} {cmov : Nat} {words : DiamondWords}
    (hNamed : isTemp d.assign.dest = true ∨ isSymbol d.assign.dest = true)
    (hText : d.compare.text = some op) (hCmov : compareTrueCmov op = some cmov)
    (hWords : diamondWords context frame d.compare d.assign = some words) :
    ∃ (c : Bool) (executed : Frame), (c = true ↔ Compares context i d.compare op words) ∧
      executeDiamond context frame i d.compare d.branch d.assign = some executed ∧
      ∀ operand, held context executed operand =
        if c = true ∧ storageOperand context.symbolAliases operand = d.assign.dest then
          assignedContent context frame d.assign words.assigned
        else if operand = .temp d.temp then (if c then 1 else 0, [])
        else held context frame operand := by
  obtain ⟨c, hCompares, hRun⟩ := executeDiamond_eq (i := i) hText hCmov hWords d.dest d.tested
  obtain ⟨-, -, -, -, hAssigned⟩ := diamondWords_spec hWords
  rw [hRun]
  cases c with
  | false =>
    refine ⟨false, _, hCompares, rfl, ?_⟩
    intro operand
    rw [held_updateTemp]
    simp
  | true =>
    let compared : Frame := { frame with temps := Function.update frame.temps d.temp 1 }
    have hCompared : ∀ operand, held context compared operand =
        if operand = .temp d.temp then (1, []) else held context frame operand :=
      held_updateTemp
    rw [if_pos rfl]
    by_cases hElided : isElidedCopy context.symbolAliases d.assign = true
    · -- the destination shares the storage of the copied symbol, so nothing is read from its own
      refine ⟨true, compared, hCompares, if_pos hElided, ?_⟩
      intro operand
      have hNe := storageOperand_ne_elided hElided operand
      rw [hCompared]
      simp [hNe]
    · obtain ⟨executed, hStore⟩ :=
        assignStore_isSome context hNamed compared words.assigned
      refine ⟨true, executed, hCompares, ?_, ?_⟩
      · rw [emitAssign, if_neg hElided, assignedValue_update d.assign_lhs, hAssigned]
        exact hStore
      · intro operand
        rw [held_assignStore hStore operand hNamed, hCompared]
        have hSame : assignedContent context compared d.assign words.assigned =
            assignedContent context frame d.assign words.assigned := by
          unfold assignedContent
          cases d.assign.dest <;> rfl
        rw [hSame]
        simp

/-- What the fused code leaves. -/
theorem Diamond.fused {op : String} {cmov : Nat} {words : DiamondWords}
    (hNamed : isTemp d.assign.dest = true ∨ isSymbol d.assign.dest = true)
    (hText : d.compare.text = some op) (hCmov : compareTrueCmov op = some cmov)
    (hWords : diamondWords context frame d.compare d.assign = some words) :
    ∃ (c' : Bool) (fused : Frame),
      (c' = true ↔ ComparesInstead context frame function i d.compare d.assign op) ∧
      emitCompareAssignDiamond context frame function i d.compare d.assign = some fused ∧
      ∀ operand, held context fused operand =
        if storageOperand context.symbolAliases operand = d.assign.dest then
          kept context frame d.assign.dest (if c' then words.raw else words.old)
        else held context frame operand := by
  obtain ⟨c', hInstead, hEmits⟩ :=
    emitCompareAssignDiamond_eq function i hText hCmov hWords
  obtain ⟨fused, hStore⟩ := store_isSome context hNamed frame (if c' then words.raw else words.old)
  exact ⟨c', fused, hInstead, hEmits.trans hStore, fun operand =>
    held_store hStore operand hNamed⟩

theorem content_eq_iff {α β : Type} {f : α → β} {raw old : α} {new before : β} {c c' : Bool}
    {P Q : Prop} (hP : c = true ↔ P) (hQ : c' = true ↔ Q) :
    f (if c' then raw else old) = (if c then new else before) ↔
      ((P ↔ Q) ∨ (P → f old = new) ∧ (¬ P → f raw = before)) ∧ (P → Q → f raw = new) ∧
        (¬ P → ¬ Q → f old = before) := by
  rw [← hP, ← hQ]
  cases c <;> cases c' <;> simp

/-- The two codes leave the same values to later reads exactly in the states that are safe. -/
theorem Diamond.safe_iff {op : String} {words : DiamondWords} {c c' : Bool} {fused executed : Frame}
    (hNamed : isTemp d.assign.dest = true ∨ isSymbol d.assign.dest = true)
    (hWords : diamondWords context frame d.compare d.assign = some words)
    (hCompares : c = true ↔ Compares context i d.compare op words)
    (hInstead : c' = true ↔ ComparesInstead context frame function i d.compare d.assign op)
    (hExecuted : ∀ operand, held context executed operand =
      if c = true ∧ storageOperand context.symbolAliases operand = d.assign.dest then
        assignedContent context frame d.assign words.assigned
      else if operand = .temp d.temp then (if c then 1 else 0, [])
      else held context frame operand)
    (hFused : ∀ operand, held context fused operand =
      if storageOperand context.symbolAliases operand = d.assign.dest then
        kept context frame d.assign.dest (if c' then words.raw else words.old)
      else held context frame operand) :
    (∀ operand, ReadLater function i operand →
      held context fused operand = held context executed operand) ↔
      DiamondSafe context frame function i d.compare d.assign op words := by
  obtain ⟨-, -, hOld, -, -⟩ := diamondWords_spec hWords
  have hRestored := fun hOwn => kept_load hOld hOwn hNamed
  have hTemp : ∀ operand, storageOperand context.symbolAliases operand = .temp d.temp ↔
      operand = .temp d.temp := fun _ => storageOperand_eq_temp
  constructor
  · intro hAgree
    -- the destination, read from its own storage
    have hContent := fun hNeeded : Needed context function i d.compare d.assign => by
      have hEq := hAgree _ hNeeded.1
      have hNe : d.assign.dest ≠ .temp d.temp := by
        rw [← d.dest]
        exact hNeeded.2.1
      rw [hFused, hExecuted, if_pos hNeeded.2.2] at hEq
      simp only [hNeeded.2.2, and_true, if_neg hNe] at hEq
      exact (content_eq_iff hCompares hInstead).mp hEq
    refine ⟨fun hNeeded => (hContent hNeeded).1, fun hNeeded => (hContent hNeeded).2.1, ?_, ?_, ?_⟩
    · intro hNeeded hNot hNotInstead
      exact (hRestored hNeeded.2.2).mp ((hContent hNeeded).2.2 hNot hNotInstead)
    · intro hRead hNe
      rw [d.dest] at hRead hNe ⊢
      have hEq := hAgree _ hRead
      rw [hFused, hExecuted, (hTemp _).mpr rfl, if_neg (Ne.symm hNe), if_neg (by simp [Ne.symm hNe]),
        if_pos rfl] at hEq
      rw [hEq, ← hCompares]
      cases c <;> simp
    · intro hRead hSame w hRaw hOldWord
      rw [d.dest] at hRead hSame
      have hEq := hAgree _ hRead
      have hPlain : assignedContent context frame d.assign words.assigned = (words.assigned, []) := by
        simp [assignedContent, copiesReturned, loadsIntoRegister, hSame, kept]
      rw [hFused, hExecuted, (hTemp _).mpr rfl, hSame, if_pos rfl, hPlain] at hEq
      rw [← hInstead] at hRaw hOldWord
      rw [← hCompares]
      cases c <;> cases c' <;> simp_all [kept]
  · intro hSafe operand hRead
    rw [hFused, hExecuted]
    by_cases hPlace : storageOperand context.symbolAliases operand = d.assign.dest
    · by_cases hSame : d.assign.dest = .temp d.temp
      · obtain rfl : operand = .temp d.temp := (hTemp operand).mp (hPlace.trans hSame)
        have hPlain : assignedContent context frame d.assign words.assigned =
            (words.assigned, []) := by
          simp [assignedContent, copiesReturned, loadsIntoRegister, hSame, kept]
        have hWord := hSafe.overwritten (by rw [d.dest]; exact hRead) (hSame.trans d.dest.symm)
          (if c' then words.raw else words.old)
        rw [← hInstead, ← hCompares] at hWord
        obtain ⟨hTrue, hFalse⟩ := hWord (fun h => if_pos h) (fun h => if_neg h)
        rw [if_pos hPlace, hPlain, hSame]
        cases c with
        | true => simp [hPlace, hSame, kept, hTrue rfl]
        | false => simp [kept, hFalse Bool.false_ne_true]
      · have hNe : operand ≠ .temp d.temp := fun hEq =>
          hSame (hPlace.symm.trans ((hTemp operand).mpr hEq))
        have hOwn : storageOperand context.symbolAliases d.assign.dest = d.assign.dest := by
          rw [← hPlace]
          exact storageOperand_idem context.aliases_ok operand
        have hReadDest : ReadLater function i d.assign.dest := by
          cases operand with
          | symbol x =>
            rw [← hPlace]
            exact trivial
          | _ =>
            rw [← hPlace]
            exact hRead
        have hNeeded : Needed context function i d.compare d.assign :=
          ⟨hReadDest, by rw [d.dest]; exact hSame, hOwn⟩
        rw [if_pos hPlace]
        simp only [hPlace, and_true, if_neg hNe]
        have hBefore : held context frame operand = held context frame d.assign.dest := by
          rw [← hPlace]
          exact (held_storageOperand operand).symm
        rw [hBefore]
        exact (content_eq_iff hCompares hInstead).mpr ⟨hSafe.compared hNeeded, hSafe.value hNeeded,
          fun hNot hNotInstead => (hRestored hOwn).mpr (hSafe.restored hNeeded hNot hNotInstead)⟩
    · rw [if_neg hPlace, if_neg fun h => hPlace h.2]
      by_cases hEq : operand = .temp d.temp
      · subst hEq
        have hNe : d.assign.dest ≠ .temp d.temp := fun h => hPlace (((hTemp _).mpr rfl).trans h.symm)
        have hHolds := hSafe.unwritten (by rw [d.dest]; exact hRead) (by rw [d.dest]; exact hNe)
        rw [d.dest, ← hCompares] at hHolds
        rw [if_pos rfl]
        cases c with
        | true => exact hHolds.1 rfl
        | false => exact hHolds.2 Bool.false_ne_true
      · rw [if_neg hEq]

/-- **The states in which the fused code does what the six instructions do.** -/
theorem diamond_agrees_iff (hMatch : matchesCompareAssignDiamond function i = true) :
    DiamondAgrees context function i frame ↔ DiamondCondition context function i frame := by
  obtain ⟨d⟩ := diamond_of_matches hMatch
  constructor
  · intro h compare assign op words hCompare hAssign hNamed hText hWords
    cases d.compare_at.symm.trans hCompare
    cases d.assign_at.symm.trans hAssign
    obtain ⟨cmov, hCmov⟩ := compareTrueCmov_of_operator (hText ▸ d.operator)
    obtain ⟨c, executed, hCompares, hExecuted, hHeld⟩ := d.executed hNamed hText hCmov hWords
    obtain ⟨c', fused, hInstead, hFused, hHeldFused⟩ := d.fused hNamed hText hCmov hWords
    obtain ⟨executed', hExecuted', hAgree⟩ :=
      h.values _ _ _ fused d.compare_at d.branch_at d.assign_at hFused
    cases hExecuted.symm.trans hExecuted'
    exact (d.safe_iff hNamed hWords hCompares hInstead hHeld hHeldFused).mp hAgree
  · intro h
    refine ⟨?_, ?_⟩
    · intro compare branch assign fused hCompare hBranch hAssign hEmitted
      cases d.compare_at.symm.trans hCompare
      cases d.branch_at.symm.trans hBranch
      cases d.assign_at.symm.trans hAssign
      obtain ⟨op, cmov, words, hText, hCmov, hWords⟩ := diamondWords_of_emitted hEmitted
      have hNamed := named_of_emitted hEmitted d.assign_dest
      obtain ⟨c, executed, hCompares, hExecuted, hHeld⟩ := d.executed hNamed hText hCmov hWords
      obtain ⟨c', fused', hInstead, hFused, hHeldFused⟩ := d.fused hNamed hText hCmov hWords
      cases hEmitted.symm.trans hFused
      refine ⟨executed, hExecuted, ?_⟩
      exact (d.safe_iff hNamed hWords hCompares hInstead hHeld hHeldFused).mpr
        (h _ _ op words d.compare_at d.assign_at hNamed hText hWords)
    · intro falseLabel endLabel j c hFalse hEnd hc
      cases d.falseLabel_at.symm.trans hFalse
      cases d.endLabel_at.symm.trans hEnd
      refine ⟨fun hJump => ?_, fun hJump => ?_⟩
      · exact eq_of_referenced_once d.falseLabel_once hc d.branch_at hJump d.branch_jumps
      · exact eq_of_referenced_once d.endLabel_once hc d.jump_at hJump d.jump_jumps

end Agreement

def plainContext : GeneratorContext where
  storage _ := .scalar 8 true
  symbolAliases := []
  recordAddress _ := 0
  literalRecord _ := 0
  literalChars _ := 0
  isCstring _ := false
  isString _ := false
  indirectTemp _ := false
  declaredNarrow _ := none
  operandSize _ := none
  inferredSize _ := none
  markedFloatBits _ := 0
  singleOfDouble w := w
  cvtsd2ss w := w
  cvtss2sd w := w
  aliases_ok := ⟨by simp, by simp⟩
  records_disjoint := by
    intro x y h
    cases h

/-- `y = 3; m = 0; t = 1; x = t;` another instruction, and `if (x < y) m = t; return m`. -/
def copiedAndCompared (between : IRInstruction) : IRFunction :=
  { name := "copied_and_compared"
    parameterNames := []
    instructions :=
      [{ op := .declareLocal, dest := .symbol "x", text := some "int64" },
       { op := .declareLocal, dest := .symbol "y", text := some "int64" },
       { op := .declareLocal, dest := .symbol "m", text := some "int64" },
       { op := .assign, dest := .symbol "y", lhs := .int 3 },
       { op := .assign, dest := .symbol "m", lhs := .int 0 },
       { op := .assign, dest := .temp "t", lhs := .int 1 },
       { op := .assign, dest := .symbol "x", lhs := .temp "t" },
       between,
       { op := .binary, dest := .temp "c", lhs := .symbol "x", rhs := .symbol "y",
         text := some "<" },
       { op := .branchZero, lhs := .temp "c", text := some "if_false" },
       { op := .assign, dest := .symbol "m", lhs := .temp "t" },
       { op := .jump, text := some "if_end" },
       { op := .label, text := some "if_false" },
       { op := .label, text := some "if_end" },
       { op := .return_, lhs := .symbol "m" }] }

/-- The frame in front of the comparison, with a value of `x`. -/
def comparedFrame (x : Word) : Frame where
  temps name := if name = "t" then 1 else 0
  slots name := if name = "x" then x else if name = "y" then 3 else 0
  records _ := (0, [])

/-- Nothing between: the symbol still holds the temp, and both comparisons come out true. -/
theorem diamond_agrees_copied :
    DiamondAgrees plainContext (copiedAndCompared { op := .nop }) 8 (comparedFrame 1) := by
  refine (diamond_agrees_iff (by decide)).mpr ?_
  intro compare assign op words hCompare hAssign _ hText hWords
  cases hCompare
  cases hAssign
  cases hText
  cases hWords
  refine ⟨fun _ => Or.inl (iff_of_true ?_ ?_), fun _ _ _ => rfl, fun _ _ _ => trivial, ?_,
    fun _ hSame => by cases hSame⟩
  · -- 1 < 3, in the symbol
    unfold Compares
    decide
  · -- and in the temp
    exact ⟨.temp "t", 1, 3, Or.inl ⟨⟨by decide, rfl, "x", "t", rfl, rfl, 6, by decide, by decide,
      by decide⟩, rfl⟩, rfl, rfl, by decide⟩
  rintro ⟨j, d, hd, hj, hReads⟩
  -- the temp of the comparison is read by the branch only
  exfalso
  have hLt : j < 15 := (List.getElem_of_getElem? hd).1
  have hNone : ∀ j < 15, j < 8 ∨ 8 + 6 ≤ j → ∀ d ∈ (copiedAndCompared { op := .nop }).instructions[j]?,
      IROperand.temp "c" ∉ d.reads := by decide
  exact hNone j hLt hj d hd hReads

/-- `x = 5` between: `5 < 3` is false and `m` stays 0, but the fused code compares the temp, which
is 1, and sets `m` to 1. -/
theorem not_diamondAgrees_reassigned : matchesCompareAssignDiamond
        (copiedAndCompared { op := .assign, dest := .symbol "x", lhs := .int 5 }) 8 = true ∧
      ¬ DiamondAgrees plainContext
        (copiedAndCompared { op := .assign, dest := .symbol "x", lhs := .int 5 }) 8
        (comparedFrame 5) := by
  refine ⟨by decide, ?_⟩
  intro h
  let reassigned := copiedAndCompared { op := .assign, dest := .symbol "x", lhs := .int 5 }
  let compare : IRInstruction :=
    { op := .binary, dest := .temp "c", lhs := .symbol "x", rhs := .symbol "y", text := some "<" }
  let branch : IRInstruction := { op := .branchZero, lhs := .temp "c", text := some "if_false" }
  let assign : IRInstruction := { op := .assign, dest := .symbol "m", lhs := .temp "t" }
  obtain ⟨fused, hFused, hOne⟩ := map_eq_some_iff.mp
    (show (emitCompareAssignDiamond plainContext (comparedFrame 5) reassigned 8 compare assign).map
      (held plainContext · (.symbol "m")) = some (1, []) by decide)
  obtain ⟨executed, hExecuted, hHeld⟩ := h.values compare branch assign fused rfl rfl rfl hFused
  have hZero : (executeDiamond plainContext (comparedFrame 5) 8 compare branch assign).map
      (held plainContext · (.symbol "m")) = some (0, []) := by decide
  rw [hExecuted, map_some, ← hHeld (.symbol "m") trivial, hOne] at hZero
  exact absurd hZero (by decide)

end Mettle.Codegen
