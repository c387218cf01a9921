import Mettle.Lib.Memory
import Mettle.Codegen.CompareDiamond

/-!
# Mettle — the machine the binary back end writes code for

The x86-64 instructions that `codegen/binary/encoders.c` encodes for integer code, by
their mnemonics, and what they do to registers, memory and flags. How they are encoded
is left out: an encoder that picks a shorter form for some immediates picks one with the
same effect.

The flags are known behind a comparison only.
-/

namespace Mettle.Codegen

open Mettle.Lib

-- ---
-- Instructions
-- ---

/-- `BinaryGpRegister`. -/
inductive GpRegister
  | rax | rcx | rdx | rbx | rsp | rbp | rsi | rdi
  | r8 | r9 | r10 | r11 | r12 | r13 | r14 | r15
  deriving DecidableEq

/-- `code_generator_binary_gp_register_is_win64_nonvolatile`. -/
def GpRegister.isWin64Nonvolatile : GpRegister → Bool
  | .rbx | .rsi | .rdi | .r12 | .r13 | .r14 | .r15 => true
  | _ => false

/-- A memory operand: a register with a displacement, or a symbol. -/
inductive Place
  | at (base : GpRegister) (displacement : Int)
  | global (name : String)
  deriving DecidableEq

inductive AluOp
  | add | sub | and | or | xor
  deriving DecidableEq

inductive ShiftOp
  | shl | sar
  deriving DecidableEq

/-- One instruction. -/
inductive X86
  | movImm (destination : GpRegister) (immediate : Word)
  | mov (destination source : GpRegister)
  | mov32 (destination source : GpRegister)
  | movsx (bytes : Nat) (destination source : GpRegister)
  | load (bytes : Nat) (destination : GpRegister) (place : Place)
  | store (bytes : Nat) (place : Place) (source : GpRegister)
  | leaScaled (destination base index : GpRegister) (scale : Nat)
  | alu (op : AluOp) (destination source : GpRegister)
  | aluImm (op : AluOp) (destination : GpRegister) (immediate : Int)
  | imul (destination source : GpRegister)
  | imulImm (destination source : GpRegister) (immediate : Int)
  | neg (destination : GpRegister)
  | not (destination : GpRegister)
  | xorSelf32 (destination : GpRegister)
  | shiftImm (op : ShiftOp) (destination : GpRegister) (count : Nat)
  | shiftCl (op : ShiftOp) (destination : GpRegister)
  | cqo
  | idiv (divisor : GpRegister)
  | cmp (width : Nat) (lhs rhs : GpRegister)
  | cmpImm (lhs : GpRegister) (immediate : Int)
  | testReg (operand : GpRegister)
  | setccAl (opcode : Nat)
  | movzxEaxAl
  deriving DecidableEq

-- ---
-- Execution
-- ---

structure X86State where
  registers : GpRegister → Word
  memory : ByteMemory
  flags : Option Flags

def X86State.set (state : X86State) (register : GpRegister) (w : Word) : X86State :=
  { state with registers := Function.update state.registers register w }

/-- `globalAddress` is where the linker put a symbol. -/
def X86State.address (globalAddress : String → Word) (state : X86State) : Place → Word
  | .at base displacement => state.registers base + BitVec.ofInt 64 displacement
  | .global name => globalAddress name

def AluOp.apply : AluOp → Word → Word → Word
  | .add, a, b => a + b
  | .sub, a, b => a - b
  | .and, a, b => a &&& b
  | .or, a, b => a ||| b
  | .xor, a, b => a ^^^ b

def ShiftOp.apply (op : ShiftOp) (w : Word) (count : Nat) : Word :=
  match op with
  | .shl => w <<< (count % 64)
  | .sar => w.sshiftRight (count % 64)

/-- `idiv`: the quotient and the remainder of `rdx:rax`, both rounded towards zero. It
traps if the divisor is 0 or the quotient does not fit. -/
def idivWord (high low divisor : Word) : Option (Word × Word) :=
  let dividend := (high ++ low).toInt
  let quotient := dividend.tdiv divisor.toInt
  if divisor = 0 ∨ quotient < -2 ^ 63 ∨ 2 ^ 63 ≤ quotient then none
  else some (BitVec.ofInt 64 quotient, BitVec.ofInt 64 (dividend.tmod divisor.toInt))

/-- What an instruction does; `none` if it traps, or tests flags that are not known. -/
def X86.execute (globalAddress : String → Word) (state : X86State) : X86 → Option X86State
  | .movImm destination immediate => some (state.set destination immediate)
  | .mov destination source => some (state.set destination (state.registers source))
  | .mov32 destination source =>
    some (state.set destination (extendScalar 4 false (state.registers source)))
  | .movsx bytes destination source =>
    some (state.set destination (extendScalar bytes true (state.registers source)))
  | .load bytes destination place =>
    some (state.set destination
      (BitVec.ofNat 64 (readLE state.memory (state.address globalAddress place) bytes)))
  | .store bytes place source =>
    some { state with
      memory := writeLE state.memory (state.address globalAddress place) bytes
        (state.registers source).toNat }
  | .leaScaled destination base index scale =>
    some (state.set destination
      (state.registers base + state.registers index * BitVec.ofNat 64 scale))
  | .alu op destination source =>
    some { state.set destination
        (op.apply (state.registers destination) (state.registers source)) with flags := none }
  | .aluImm op destination immediate =>
    some { state.set destination
        (op.apply (state.registers destination) (BitVec.ofInt 64 immediate)) with flags := none }
  | .imul destination source =>
    some { state.set destination
        (state.registers destination * state.registers source) with flags := none }
  | .imulImm destination source immediate =>
    some { state.set destination
        (state.registers source * BitVec.ofInt 64 immediate) with flags := none }
  | .neg destination =>
    some { state.set destination (-(state.registers destination)) with flags := none }
  | .not destination => some (state.set destination (~~~(state.registers destination)))
  | .xorSelf32 destination =>
    some { state.set destination
        (extendScalar 4 false (state.registers destination ^^^ state.registers destination))
      with flags := none }
  | .shiftImm op destination count =>
    some { state.set destination
        (op.apply (state.registers destination) count) with flags := none }
  | .shiftCl op destination =>
    some { state.set destination
        (op.apply (state.registers destination) ((state.registers .rcx).toNat % 256))
      with flags := none }
  | .cqo => some (state.set .rdx (if (state.registers .rax).msb then -1 else 0))
  | .idiv divisor =>
    (idivWord (state.registers .rdx) (state.registers .rax) (state.registers divisor)).map
      fun (quotient, remainder) =>
        { (state.set .rax quotient).set .rdx remainder with flags := none }
  | .cmp width lhs rhs =>
    some { state with
      flags := some (emitRegRegCompare (state.registers lhs) (state.registers rhs) width) }
  | .cmpImm lhs immediate =>
    some { state with flags := some (cmpRegImm32 (state.registers lhs) immediate) }
  | .testReg operand =>
    some { state with flags := some (cmpRegImm32 (state.registers operand) 0) }
  | .setccAl opcode =>
    state.flags.map fun flags =>
      state.set .rax ((state.registers .rax &&& ~~~0xFF#64) |||
        (if conditionHolds opcode flags then 1 else 0))
  | .movzxEaxAl => some (state.set .rax (extendScalar 1 false (state.registers .rax)))

def executeCode (globalAddress : String → Word) (state : X86State) (code : List X86) :
    Option X86State :=
  code.foldlM (X86.execute globalAddress) state

section

variable {globalAddress : String → Word} {state : X86State}

@[simp] theorem executeCode_nil : executeCode globalAddress state [] = some state := rfl

@[simp] theorem executeCode_cons (instruction : X86) (code : List X86) :
    executeCode globalAddress state (instruction :: code) =
      (instruction.execute globalAddress state).bind fun state' =>
        executeCode globalAddress state' code := rfl

theorem executeCode_append (code code' : List X86) :
    executeCode globalAddress state (code ++ code') =
      (executeCode globalAddress state code).bind fun state' =>
        executeCode globalAddress state' code' := by
  rw [executeCode, List.foldlM_append]
  rfl

@[simp] theorem registers_set (register : GpRegister) (w : Word) :
    (state.set register w).registers register = w := by
  simp [X86State.set]

theorem registers_set_of_ne {register other : GpRegister} (h : other ≠ register) (w : Word) :
    (state.set register w).registers other = state.registers other := by
  simp [X86State.set, h]

end

end Mettle.Codegen
