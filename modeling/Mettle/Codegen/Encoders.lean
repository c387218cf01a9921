import Mettle.Lib.Bytes
import Mettle.Codegen.X86

/-!
# Mettle — instruction encodings

The encoders of `codegen/binary/encoders.c` for memory accesses, `lea` with a scaled index,
loads of constants and arithmetic with a constant, byte by byte, and a decoder for the
forms they use that follows the rules of the architecture for the operand-size byte, `REX`,
`ModRM`, `SIB`, displacements and immediates. An encoder returns `none` where the source
refuses to encode.

Some encoders pick a form with the same effect and not the one asked for: arithmetic that
changes nothing is left out, and a comparison with zero tests the register.
-/

namespace Mettle.Codegen

open Mettle.Lib List Option BitVec

-- ---
-- Registers and bytes
-- ---

/-- The value of `BinaryGpRegister`, which is the number of the register. -/
def GpRegister.number : GpRegister → Nat
  | .rax => 0
  | .rcx => 1
  | .rdx => 2
  | .rbx => 3
  | .rsp => 4
  | .rbp => 5
  | .rsi => 6
  | .rdi => 7
  | .r8 => 8
  | .r9 => 9
  | .r10 => 10
  | .r11 => 11
  | .r12 => 12
  | .r13 => 13
  | .r14 => 14
  | .r15 => 15

def GpRegister.all : List GpRegister :=
  [.rax, .rcx, .rdx, .rbx, .rsp, .rbp, .rsi, .rdi, .r8, .r9, .r10, .r11, .r12, .r13, .r14, .r15]

def GpRegister.ofNumber (n : Nat) : GpRegister := GpRegister.all.getD n .rax

/-- `reg >> 3`, as the flag that the encoders take it for. -/
def GpRegister.high (r : GpRegister) : Bool := r.number >>> 3 != 0

/-- `reg & 7`. -/
def GpRegister.low (r : GpRegister) : Nat := r.number &&& 7

/-- `(unsigned char)n`. -/
def byte (n : Nat) : UInt8 := UInt8.ofNat n

-- ---
-- Encoders
-- ---

/-- `binary_emit_rex_maybe_forced`. -/
def emitRexMaybeForced (w r x b force : Bool) : List UInt8 :=
  let rex := 0x40 ||| (if w then 0x08 else 0) ||| (if r then 0x04 else 0) |||
    (if x then 0x02 else 0) ||| (if b then 0x01 else 0)
  if rex = 0x40 ∧ force = false then [] else [byte rex]

/-- `binary_emit_rex`. -/
def emitRex (w r x b : Bool) : List UInt8 := emitRexMaybeForced w r x b false

def fitsInt8 (value : BitVec 32) : Bool := -128 ≤ value.toInt && value.toInt ≤ 127

/-- `binary_emit_memory_access_ex_internal`. -/
def emitMemoryAccessExInternal (operandSize rexW : Bool) (opcode1 : UInt8)
    (opcode2 : Option UInt8) (reg base : GpRegister) (displacement : BitVec 32)
    (forceRex : Bool) : List UInt8 :=
  let mod := if fitsInt8 displacement then 1 else 2
  let rm := base.low
  let modrm := (mod <<< 6) ||| (reg.low <<< 3) ||| (if rm = GpRegister.rsp.low then 4 else rm)
  (if operandSize then [(0x66 : UInt8)] else []) ++
    emitRexMaybeForced rexW reg.high false base.high forceRex ++
    opcode1 :: opcode2.toList ++ byte modrm ::
    (if rm = GpRegister.rsp.low then [byte ((0 <<< 6) ||| (4 <<< 3) ||| base.low)] else []) ++
    leBytes (if fitsInt8 displacement then 1 else 4) displacement.toNat

/-- `binary_emit_memory_access_ex`. -/
def emitMemoryAccessEx (operandSize rexW : Bool) (opcode1 : UInt8) (opcode2 : Option UInt8)
    (reg base : GpRegister) (displacement : BitVec 32) : List UInt8 :=
  emitMemoryAccessExInternal operandSize rexW opcode1 opcode2 reg base displacement false

/-- `binary_emit_memory_access`. -/
def emitMemoryAccess (opcode : UInt8) (reg base : GpRegister) (displacement : BitVec 32) :
    List UInt8 :=
  emitMemoryAccessEx false true opcode none reg base displacement

/-- `mov r64, [base + disp]`. -/
def emitMovRegMem (destination base : GpRegister) (displacement : BitVec 32) : List UInt8 :=
  emitMemoryAccess 0x8B destination base displacement

/-- `mov [base + disp], r64`. -/
def emitMovMemReg (base : GpRegister) (displacement : BitVec 32) (source : GpRegister) :
    List UInt8 :=
  emitMemoryAccess 0x89 source base displacement

/-- `movzx r32, byte [base + disp]`. -/
def emitMovzxRegMem8 (destination base : GpRegister) (displacement : BitVec 32) : List UInt8 :=
  emitMemoryAccessEx false false 0x0F (some 0xB6) destination base displacement

/-- `movzx r32, word [base + disp]`. -/
def emitMovzxRegMem16 (destination base : GpRegister) (displacement : BitVec 32) : List UInt8 :=
  emitMemoryAccessEx false false 0x0F (some 0xB7) destination base displacement

/-- `mov r32, [base + disp]`. -/
def emitMovRegMem32 (destination base : GpRegister) (displacement : BitVec 32) : List UInt8 :=
  emitMemoryAccessEx false false 0x8B none destination base displacement

/-- Without `REX` the numbers 4 to 7 name the second bytes of the first four registers. -/
def emitMovMemReg8 (base : GpRegister) (displacement : BitVec 32) (source : GpRegister) :
    List UInt8 :=
  let forceRex := GpRegister.rsp.number ≤ source.number ∧ source.number ≤ GpRegister.rdi.number
  emitMemoryAccessExInternal false false 0x88 none source base displacement (decide forceRex)

/-- `mov [base + disp], r16`. -/
def emitMovMemReg16 (base : GpRegister) (displacement : BitVec 32) (source : GpRegister) :
    List UInt8 :=
  emitMemoryAccessEx true false 0x89 none source base displacement

/-- `mov [base + disp], r32`. -/
def emitMovMemReg32 (base : GpRegister) (displacement : BitVec 32) (source : GpRegister) :
    List UInt8 :=
  emitMemoryAccessEx false false 0x89 none source base displacement

/-- `lea r64, [base + disp]`. -/
def emitLeaRegMem (destination base : GpRegister) (displacement : BitVec 32) : List UInt8 :=
  emitMemoryAccess 0x8D destination base displacement

def scaleBits : Nat → Option Nat
  | 1 => some 0
  | 2 => some 1
  | 4 => some 2
  | 8 => some 3
  | _ => none

/-- `binary_emit_lea_reg_base_index_scale_disp`. -/
def emitLeaRegBaseIndexScaleDisp (destination base index : GpRegister) (scale : Nat)
    (displacement : BitVec 32) : Option (List UInt8) :=
  if index = .rsp then none
  else (scaleBits scale).map fun scale_bits =>
    let mod := if displacement = 0 ∧ base.low ≠ GpRegister.rbp.low then 0
      else if fitsInt8 displacement then 1 else 2
    emitRex true destination.high index.high base.high ++
      [0x8D, byte ((mod <<< 6) ||| (destination.low <<< 3) ||| 4),
        byte ((scale_bits <<< 6) ||| (index.low <<< 3) ||| base.low)] ++
      (if mod = 1 then leBytes 1 displacement.toNat
        else if mod = 2 then leBytes 4 displacement.toNat else [])

/-- `binary_emit_mov_reg_imm32_zero_extend`. -/
def emitMovRegImm32ZeroExtend (destination : GpRegister) (immediate : BitVec 32) : List UInt8 :=
  emitRex false false false destination.high ++
    byte (0xB8 + destination.low) :: leBytes 4 immediate.toNat

/-- `binary_emit_mov_reg_imm64`. -/
def emitMovRegImm64 (destination : GpRegister) (immediate : BitVec 64) : List UInt8 :=
  if immediate = 0 then emitMovRegImm32ZeroExtend destination 0
  else if immediate.toNat ≤ 2 ^ 32 - 1 then
    emitMovRegImm32ZeroExtend destination (immediate.setWidth 32)
  else if immediate.toNat ≥ 0xffffffff80000000 then
    emitRex true false false destination.high ++
      0xC7 :: byte (0xC0 ||| destination.low) :: leBytes 4 (immediate.setWidth 32).toNat
  else
    emitRex true false false destination.high ++
      byte (0xB8 + destination.low) :: leBytes 8 immediate.toNat

/-- `binary_emit_alu_reg_imm32`. -/
def emitAluRegImm32 (subopcode : Nat) (reg : GpRegister) (immediate : BitVec 32) : List UInt8 :=
  if (subopcode = 0 ∨ subopcode = 1 ∨ subopcode = 5 ∨ subopcode = 6) ∧ immediate = 0 then []
  else if subopcode = 4 ∧ immediate = BitVec.allOnes 32 then []
  else if fitsInt8 immediate then
    emitRex true false false reg.high ++
      0x83 :: byte (0xC0 ||| ((subopcode &&& 7) <<< 3) ||| reg.low) :: leBytes 1 immediate.toNat
  else
    emitRex true false false reg.high ++
      0x81 :: byte (0xC0 ||| ((subopcode &&& 7) <<< 3) ||| reg.low) :: leBytes 4 immediate.toNat

/-- `add r64, imm32`. -/
def emitAddRegImm32 (reg : GpRegister) (immediate : BitVec 32) : List UInt8 :=
  emitAluRegImm32 0 reg immediate

/-- `sub r64, imm32`. -/
def emitSubRegImm32 (reg : GpRegister) (immediate : BitVec 32) : List UInt8 :=
  emitAluRegImm32 5 reg immediate

/-- `and r64, imm32`. -/
def emitAndRegImm32 (reg : GpRegister) (immediate : BitVec 32) : List UInt8 :=
  emitAluRegImm32 4 reg immediate

/-- `or r64, imm32`. -/
def emitOrRegImm32 (reg : GpRegister) (immediate : BitVec 32) : List UInt8 :=
  emitAluRegImm32 1 reg immediate

/-- `xor r64, imm32`. -/
def emitXorRegImm32 (reg : GpRegister) (immediate : BitVec 32) : List UInt8 :=
  emitAluRegImm32 6 reg immediate

/-- `binary_emit_test_reg_reg`. -/
def emitTestRegReg (reg : GpRegister) : List UInt8 :=
  emitRex true reg.high false reg.high ++ [0x85, byte (0xC0 ||| (reg.low <<< 3) ||| reg.low)]

/-- `binary_emit_cmp_reg_imm32`. -/
def emitCmpRegImm32 (reg : GpRegister) (immediate : BitVec 32) : List UInt8 :=
  if immediate = 0 then emitTestRegReg reg else emitAluRegImm32 7 reg immediate

-- ---
-- Decoder
-- ---

inductive OperandSize
  | byte | word | dword | qword
  deriving DecidableEq

/-- The operations that opcodes `81` and `83` number from 0 to 7. -/
inductive AluOperation
  | add | or | adc | sbb | and | sub | xor | cmp
  deriving DecidableEq

def AluOperation.ofNumber : Nat → AluOperation
  | 0 => .add
  | 1 => .or
  | 2 => .adc
  | 3 => .sbb
  | 4 => .and
  | 5 => .sub
  | 6 => .xor
  | _ => .cmp

inductive Operation
  | mov
  | movzx (source : OperandSize)
  | lea
  | alu (operation : AluOperation)
  | test
  deriving DecidableEq

inductive Operand
  | register (r : GpRegister)
  | highByte (r : GpRegister)
  | memory (base : Option GpRegister) (index : Option (GpRegister × Nat)) (displacement : Int)
  | ripRelative (displacement : Int)
  | immediate (value : Int)
  deriving DecidableEq

structure Decoded where
  operation : Operation
  size : OperandSize
  destination : Operand
  source : Operand
  deriving DecidableEq

structure Rex where
  present : Bool
  w : Bool
  r : Bool
  x : Bool
  b : Bool
  deriving DecidableEq

def takeOperandSize : List UInt8 → Bool × List UInt8
  | [] => (false, [])
  | first :: rest => if first = 0x66 then (true, rest) else (false, first :: rest)

/-- A byte from `40` to `4F` in front of the opcode. -/
def takeRex : List UInt8 → Rex × List UInt8
  | [] => (⟨false, false, false, false, false⟩, [])
  | first :: rest =>
    if first.toNat / 16 = 4 then
      (⟨true, first.toNat / 8 % 2 = 1, first.toNat / 4 % 2 = 1, first.toNat / 2 % 2 = 1,
        first.toNat % 2 = 1⟩, rest)
    else (⟨false, false, false, false, false⟩, first :: rest)

/-- A little-endian number of `n` bytes, sign-extended. -/
def takeSigned (n : Nat) (bytes : List UInt8) : Option (Int × List UInt8) :=
  if bytes.length < n then none
  else some (Int.bmod (leNat (bytes.take n)) (256 ^ n), bytes.drop n)

def extended (flag : Bool) (field : Nat) : Nat := if flag then field + 8 else field

/-- The displacement that belongs to the `mod` field. -/
def takeDisplacement (mod : Nat) (bytes : List UInt8) : Option (Int × List UInt8) :=
  if mod = 0 then some (0, bytes) else takeSigned (if mod = 1 then 1 else 4) bytes

/-- A `ModRM` byte with what follows it: the number in its `reg` field and its operand. -/
def decodeModRM (rex : Rex) : List UInt8 → Option (Nat × Operand × List UInt8)
  | [] => none
  | modrm :: rest =>
    let mod := modrm.toNat / 64
    let reg := extended rex.r (modrm.toNat / 8 % 8)
    let rm := modrm.toNat % 8
    if mod = 3 then some (reg, .register (.ofNumber (extended rex.b rm)), rest)
    else if rm = 4 then
      match rest with
      | [] => none
      | sib :: rest =>
        let indexNumber := extended rex.x (sib.toNat / 8 % 8)
        let index := if indexNumber = 4 then none
          else some (GpRegister.ofNumber indexNumber, 2 ^ (sib.toNat / 64))
        if mod = 0 ∧ sib.toNat % 8 = 5 then
          (takeSigned 4 rest).map fun (displacement, rest) =>
            (reg, .memory none index displacement, rest)
        else
          (takeDisplacement mod rest).map fun (displacement, rest) =>
            (reg, .memory (some (.ofNumber (extended rex.b (sib.toNat % 8)))) index displacement,
              rest)
    else if mod = 0 ∧ rm = 5 then
      (takeSigned 4 rest).map fun (displacement, rest) => (reg, .ripRelative displacement, rest)
    else
      (takeDisplacement mod rest).map fun (displacement, rest) =>
        (reg, .memory (some (.ofNumber (extended rex.b rm))) none displacement, rest)

def byteRegister (rex : Rex) (number : Nat) : Operand :=
  if rex.present = false ∧ 4 ≤ number then .highByte (.ofNumber (number - 4))
  else .register (.ofNumber number)

def operandSizeOf (operandSize : Bool) (rex : Rex) : OperandSize :=
  if rex.w then .qword else if operandSize then .word else .dword

/-- The bytes of an immediate: never more than four, except in `B8` to `BF`. -/
def immediateBytes : OperandSize → Nat
  | .byte => 1
  | .word => 2
  | .dword | .qword => 4

def decodeSecondMap (operandSize : Bool) (rex : Rex) : List UInt8 → Option (Decoded × List UInt8)
  | [] => none
  | opcode :: rest =>
    if opcode = 0xB6 ∨ opcode = 0xB7 then
      (decodeModRM rex rest).map fun (reg, operand, rest) =>
        (⟨.movzx (if opcode = 0xB6 then .byte else .word), operandSizeOf operandSize rex,
          .register (.ofNumber reg), operand⟩, rest)
    else none

def decodeOpcode (operandSize : Bool) (rex : Rex) : List UInt8 → Option (Decoded × List UInt8)
  | [] => none
  | opcode :: rest =>
    let size := operandSizeOf operandSize rex
    if opcode = 0x0F then decodeSecondMap operandSize rex rest
    else if opcode = 0x8B then
      (decodeModRM rex rest).map fun (reg, operand, rest) =>
        (⟨.mov, size, .register (.ofNumber reg), operand⟩, rest)
    else if opcode = 0x89 then
      (decodeModRM rex rest).map fun (reg, operand, rest) =>
        (⟨.mov, size, operand, .register (.ofNumber reg)⟩, rest)
    else if opcode = 0x88 then
      (decodeModRM rex rest).map fun (reg, operand, rest) =>
        (⟨.mov, .byte, operand, byteRegister rex reg⟩, rest)
    else if opcode = 0x8D then
      (decodeModRM rex rest).map fun (reg, operand, rest) =>
        (⟨.lea, size, .register (.ofNumber reg), operand⟩, rest)
    else if opcode = 0x85 then
      (decodeModRM rex rest).map fun (reg, operand, rest) =>
        (⟨.test, size, operand, .register (.ofNumber reg)⟩, rest)
    else if opcode = 0x83 ∨ opcode = 0x81 then
      (decodeModRM rex rest).bind fun (reg, operand, rest) =>
        (takeSigned (if opcode = 0x83 then 1 else immediateBytes size) rest).map
          fun (value, rest) =>
            (⟨.alu (.ofNumber (reg % 8)), size, operand, .immediate value⟩, rest)
    else if opcode = 0xC7 then
      (decodeModRM rex rest).bind fun (reg, operand, rest) =>
        if reg % 8 ≠ 0 then none
        else (takeSigned (immediateBytes size) rest).map fun (value, rest) =>
          (⟨.mov, size, operand, .immediate value⟩, rest)
    else if opcode.toNat / 8 = 23 then
      (takeSigned (if size = .qword then 8 else immediateBytes size) rest).map
        fun (value, rest) =>
          (⟨.mov, size, .register (.ofNumber (extended rex.b (opcode.toNat % 8))),
            .immediate value⟩, rest)
    else none

def decodeInstruction (bytes : List UInt8) : Option (Decoded × List UInt8) :=
  let (operandSize, bytes) := takeOperandSize bytes
  let (rex, bytes) := takeRex bytes
  decodeOpcode operandSize rex bytes

-- ---
-- Fields
-- ---

theorem byte_fields (high middle low : Nat) (hHigh : high < 4) (hMiddle : middle < 8)
    (hLow : low < 8) :
    (byte ((high <<< 6) ||| (middle <<< 3) ||| low)).toNat = high * 64 + middle * 8 + low := by
  have h : ∀ (a : Fin 4) (b c : Fin 8), (byte ((a.val <<< 6) ||| (b.val <<< 3) ||| c.val)).toNat =
        a.val * 64 + b.val * 8 + c.val := by decide
  exact h ⟨high, hHigh⟩ ⟨middle, hMiddle⟩ ⟨low, hLow⟩

variable (r : GpRegister)

theorem low_lt : r.low < 8 := by cases r <;> decide

@[simp] theorem extended_high_low : extended r.high r.low = r.number := by
  cases r <;> rfl

@[simp] theorem ofNumber_number : GpRegister.ofNumber r.number = r := by
  cases r <;> rfl

theorem takeSigned_leBytes (n v : Nat) (rest : List UInt8) :
    takeSigned n (leBytes n v ++ rest) = some (Int.bmod v (256 ^ n), rest) := by
  have hTake : (leBytes n v ++ rest).take n = leBytes n v := by
    rw [take_append_of_le_length (length_leBytes n v).ge, take_of_length_le (length_leBytes n v).le]
  have hDrop : (leBytes n v ++ rest).drop n = rest := by
    rw [drop_append_of_le_length (length_leBytes n v).ge,
      drop_eq_nil_of_le (length_leBytes n v).le, nil_append]
  have hLength : ¬ (leBytes n v ++ rest).length < n := by
    rw [length_append, length_leBytes]
    omega
  unfold takeSigned
  rw [if_neg hLength, hTake, hDrop, leNat_leBytes, Int.natCast_emod, Int.emod_bmod]

theorem bmod_byte {value : BitVec 32} (hFits : fitsInt8 value = true) :
    Int.bmod value.toNat (256 ^ 1) = value.toInt := by
  obtain ⟨hLow, hHigh⟩ := (Bool.and_eq_true _ _).mp hFits
  have hWide := toInt_eq_toNat_bmod value
  have hCong : Int.bmod value.toNat 256 = Int.bmod value.toInt 256 := by
    rw [hWide, Int.bmod_bmod_of_dvd (by decide)]
  rw [show (256 ^ 1 : Nat) = 256 from rfl, hCong]
  exact Int.bmod_eq_of_le (by simpa using hLow) (by have := of_decide_eq_true hHigh; omega)

theorem bmod_four (value : BitVec 32) : Int.bmod value.toNat (256 ^ 4) = value.toInt :=
  (toInt_eq_toNat_bmod value).symm

theorem takeSigned_short (value : BitVec 32) (rest : List UInt8) :
    takeSigned (if fitsInt8 value then 1 else 4)
        (leBytes (if fitsInt8 value then 1 else 4) value.toNat ++ rest) =
      some (value.toInt, rest) := by
  rw [takeSigned_leBytes]
  by_cases hFits : fitsInt8 value = true
  · rw [if_pos hFits, bmod_byte hFits]
  · rw [if_neg hFits, bmod_four]

/-- An opcode that is neither the operand-size byte nor `REX`. -/
def IsOpcode (opcode : UInt8) : Prop := opcode ≠ 0x66 ∧ opcode.toNat / 16 ≠ 4

instance (opcode : UInt8) : Decidable (IsOpcode opcode) := inferInstanceAs (Decidable (_ ∧ _))

variable {opcode : UInt8}

theorem takeRex_emitRexMaybeForced (w r x b force : Bool) (hOpcode : IsOpcode opcode)
    (rest : List UInt8) :
    takeRex (emitRexMaybeForced w r x b force ++ opcode :: rest) =
      (⟨w || r || x || b || force, w, r, x, b⟩, opcode :: rest) := by
  have hAbsent : takeRex (opcode :: rest) =
      (⟨false, false, false, false, false⟩, opcode :: rest) := if_neg hOpcode.2
  cases w <;> cases r <;> cases x <;> cases b <;> cases force <;> first | exact hAbsent | rfl

theorem takeOperandSize_rex (operandSize w r x b force : Bool) (hOpcode : IsOpcode opcode)
    (rest : List UInt8) :
    takeOperandSize ((if operandSize then [(0x66 : UInt8)] else []) ++
        emitRexMaybeForced w r x b force ++ opcode :: rest) =
      (operandSize, emitRexMaybeForced w r x b force ++ opcode :: rest) := by
  have hAbsent : takeOperandSize (opcode :: rest) = (false, opcode :: rest) := if_neg hOpcode.1
  cases operandSize
  · cases w <;> cases r <;> cases x <;> cases b <;> cases force <;> first | exact hAbsent | rfl
  · rfl

/-- **What stands before the opcode is read back.** -/
theorem decodeInstruction_opcode (operandSize w r x b force : Bool) (hOpcode : IsOpcode opcode)
    (rest : List UInt8) :
    decodeInstruction ((if operandSize then [(0x66 : UInt8)] else []) ++
        emitRexMaybeForced w r x b force ++ opcode :: rest) =
      decodeOpcode operandSize ⟨w || r || x || b || force, w, r, x, b⟩ (opcode :: rest) := by
  unfold decodeInstruction
  rw [takeOperandSize_rex operandSize w r x b force hOpcode]
  simp only [takeRex_emitRexMaybeForced w r x b force hOpcode]

theorem decodeInstruction_emitRex (w r x b : Bool) (hOpcode : IsOpcode opcode) (rest : List UInt8) :
    decodeInstruction (emitRex w r x b ++ opcode :: rest) =
      decodeOpcode false ⟨w || r || x || b, w, r, x, b⟩ (opcode :: rest) := by
  have h := decodeInstruction_opcode false w r x b false hOpcode rest
  rw [Bool.or_false] at h
  exact h

-- ---
-- Memory operands
-- ---

theorem takeDisplacement_short (displacement : BitVec 32) (rest : List UInt8) :
    takeDisplacement (if fitsInt8 displacement then 1 else 2)
        (leBytes (if fitsInt8 displacement then 1 else 4) displacement.toNat ++ rest) =
      some (displacement.toInt, rest) := by
  have h := takeSigned_short displacement rest
  unfold takeDisplacement
  by_cases hFits : fitsInt8 displacement = true
  · simpa only [if_pos hFits, if_neg (show ¬ (1 = 0) by decide), if_true] using h
  · simpa only [if_neg hFits, if_neg (show ¬ (2 = 0) by decide),
      if_neg (show ¬ (2 = 1) by decide)] using h

variable {base : GpRegister}
variable {reg : GpRegister}

/-- **A base with a displacement is read back.** -/
theorem decodeModRM_memory {rex : Rex} (hR : rex.r = reg.high) (hX : rex.x = false)
    (hB : rex.b = base.high) (displacement : BitVec 32) (rest : List UInt8) :
    decodeModRM rex (byte (((if fitsInt8 displacement then 1 else 2) <<< 6) |||
          (reg.low <<< 3) ||| (if base.low = GpRegister.rsp.low then 4 else base.low)) ::
        (if base.low = GpRegister.rsp.low then [byte ((0 <<< 6) ||| (4 <<< 3) ||| base.low)]
          else []) ++
        leBytes (if fitsInt8 displacement then 1 else 4) displacement.toNat ++ rest) =
      some (reg.number, .memory (some base) none displacement.toInt, rest) := by
  have hReg := low_lt reg
  have hBase := low_lt base
  have hDisplacement := takeDisplacement_short displacement rest
  generalize hMod : (if fitsInt8 displacement then 1 else 2) = mod at hDisplacement ⊢
  have hModBounds : mod = 1 ∨ mod = 2 := by
    rw [← hMod]
    split <;> simp
  have hFields := byte_fields mod reg.low (if base.low = GpRegister.rsp.low then 4 else base.low)
    (by omega) hReg (by split <;> omega)
  have hModField : (mod * 64 + reg.low * 8 +
      (if base.low = GpRegister.rsp.low then 4 else base.low)) / 64 = mod := by
    split <;> omega
  have hRegField : (mod * 64 + reg.low * 8 +
      (if base.low = GpRegister.rsp.low then 4 else base.low)) / 8 % 8 = reg.low := by
    split <;> omega
  have hRmField : (mod * 64 + reg.low * 8 +
      (if base.low = GpRegister.rsp.low then 4 else base.low)) % 8 =
        if base.low = GpRegister.rsp.low then 4 else base.low := by
    split <;> omega
  have hNotThree : ¬ mod = 3 := by omega
  have hNotZero : ∀ p : Prop, ¬ (mod = 0 ∧ p) := by omega
  simp only [decodeModRM, List.cons_append, hFields, hModField, hRegField, hRmField, hR, hB, hX,
    extended_high_low, if_neg hNotThree]
  by_cases hSib : base.low = GpRegister.rsp.low
  · -- the `SIB` byte says that there is no index
    have hSibFields := byte_fields 0 4 base.low (by omega) (by omega) hBase
    have hIndex : (0 * 64 + 4 * 8 + base.low) / 8 % 8 = 4 := by omega
    have hBaseField : (0 * 64 + 4 * 8 + base.low) % 8 = base.low := by omega
    simp only [if_pos hSib, if_true, List.cons_append, List.nil_append, hSibFields, hIndex,
      hBaseField, extended, Bool.false_eq_true, if_false, if_neg (hNotZero _), hDisplacement,
      Option.map_some]
    rw [← extended, extended_high_low, ofNumber_number]
  · have hRm : ¬ base.low = 4 := hSib
    simp [if_neg hSib, if_neg hRm, if_neg (hNotZero _), hDisplacement]

/-- The bytes are one instruction, this one, whatever bytes stand behind them. -/
def DecodesTo (bytes : List UInt8) (decoded : Decoded) : Prop :=
  ∀ rest, decodeInstruction (bytes ++ rest) = some (decoded, rest)

variable {displacement : BitVec 32}

theorem memoryAccess_decodes {operandSize rexW : Bool} {opcode1 : UInt8} {opcode2 : Option UInt8}
    {force : Bool} {result : Decoded} (hOpcode : IsOpcode opcode1)
    (hDecode : ∀ (rex : Rex) (bytes rest : List UInt8), rex = ⟨rexW ||
      reg.high || false || base.high || force, rexW, reg.high, false, base.high⟩ → decodeModRM rex
      bytes = some (reg.number, .memory (some base) none displacement.toInt, rest) → decodeOpcode
      operandSize rex (opcode1 :: (opcode2.toList ++ bytes)) = some (result, rest)) :
    DecodesTo (emitMemoryAccessExInternal operandSize rexW opcode1 opcode2 reg base displacement
      force) result := by
  intro rest
  have h := decodeInstruction_opcode operandSize rexW reg.high false base.high force hOpcode
    (opcode2.toList ++ (byte (((if fitsInt8 displacement then 1 else 2) <<< 6) |||
        (reg.low <<< 3) ||| (if base.low = GpRegister.rsp.low then 4 else base.low)) ::
      (if base.low = GpRegister.rsp.low then [byte ((0 <<< 6) ||| (4 <<< 3) ||| base.low)]
        else []) ++
      leBytes (if fitsInt8 displacement then 1 else 4) displacement.toNat ++ rest))
  rw [hDecode _ _ rest rfl (decodeModRM_memory rfl rfl rfl displacement rest)] at h
  rw [← h]
  unfold emitMemoryAccessExInternal
  simp

/-- The loads, stores and address computations of a base and a displacement. -/
inductive MemoryForm
  | load (size : OperandSize)
  | store (size : OperandSize)
  | lea
  deriving DecidableEq

/-- The encoder of a form; `reg` is what is loaded, stored or set to the address. -/
def MemoryForm.emit (form : MemoryForm) (reg base : GpRegister) (displacement : BitVec 32) :
    List UInt8 :=
  match form with
  | .load .byte => emitMovzxRegMem8 reg base displacement
  | .load .word => emitMovzxRegMem16 reg base displacement
  | .load .dword => emitMovRegMem32 reg base displacement
  | .load .qword => emitMovRegMem reg base displacement
  | .store .byte => emitMovMemReg8 base displacement reg
  | .store .word => emitMovMemReg16 base displacement reg
  | .store .dword => emitMovMemReg32 base displacement reg
  | .store .qword => emitMovMemReg base displacement reg
  | .lea => emitLeaRegMem reg base displacement

def MemoryForm.intended (form : MemoryForm) (reg base : GpRegister) (displacement : BitVec 32) :
    Decoded :=
  let place := Operand.memory (some base) none displacement.toInt
  match form with
  | .load .byte => ⟨.movzx .byte, .dword, .register reg, place⟩
  | .load .word => ⟨.movzx .word, .dword, .register reg, place⟩
  | .load .dword => ⟨.mov, .dword, .register reg, place⟩
  | .load .qword => ⟨.mov, .qword, .register reg, place⟩
  | .store size => ⟨.mov, size, place, .register reg⟩
  | .lea => ⟨.lea, .qword, .register reg, place⟩

theorem byteRegister_number (reg : GpRegister) (w x b : Bool) :
    byteRegister ⟨w || reg.high || x || b || decide (GpRegister.rsp.number ≤ reg.number ∧
      reg.number ≤ GpRegister.rdi.number), w, reg.high, x, b⟩ reg.number = .register reg := by
  cases reg <;> cases w <;> cases x <;> cases b <;> rfl

/-- **Every load, store and `lea`** of a base and a displacement is the one asked for. -/
theorem memoryForm_decodes (form : MemoryForm) (reg base : GpRegister) (displacement : BitVec 32) :
    DecodesTo (form.emit reg base displacement) (form.intended reg base displacement) := by
  rcases form with (_ | _ | _ | _) | (_ | _ | _ | _) | _
  case store.byte =>
    refine memoryAccess_decodes (by decide) ?_
    rintro rex bytes rest rfl hModRM
    have hByte := byteRegister_number reg false false base.high
    simp only [Option.toList_none, List.nil_append, decodeOpcode, hModRM, Option.map_some, hByte]
    rfl
  all_goals
    refine memoryAccess_decodes (by decide) ?_
    rintro rex bytes rest rfl hModRM
    simp only [Option.toList_none, Option.toList_some, List.nil_append, List.cons_append,
      decodeOpcode, decodeSecondMap, hModRM, Option.map_some, ofNumber_number]
    rfl

-- ---
-- Scaled indexes
-- ---

theorem number_eq_four {r : GpRegister} : r.number = 4 ↔ r = .rsp := by
  cases r <;> decide

theorem scaleBits_inv {scale bits : Nat} (h : scaleBits scale = some bits) :
    bits < 4 ∧ 2 ^ bits = scale := by
  unfold scaleBits at h
  split at h
  · cases h; decide
  · cases h; decide
  · cases h; decide
  · cases h; decide
  · cases h

/-- **`lea` of a base, a scaled index and a displacement.** -/
theorem leaScaled_decodes {destination index : GpRegister} {scale : Nat} {bytes : List UInt8}
    (h : emitLeaRegBaseIndexScaleDisp destination base index scale displacement = some bytes) :
    DecodesTo bytes ⟨.lea, .qword, .register destination,
      .memory (some base) (some (index, scale)) displacement.toInt⟩ := by
  unfold emitLeaRegBaseIndexScaleDisp at h
  split at h
  · cases h
  rename_i hIndex
  obtain ⟨bits, hBits, rfl⟩ := Option.map_eq_some_iff.mp h
  have hScale := scaleBits_inv hBits
  intro rest
  generalize hMod : (if displacement = 0 ∧ base.low ≠ GpRegister.rbp.low then 0
    else if fitsInt8 displacement then 1 else 2) = mod
  have hModBounds : mod < 3 := by
    rw [← hMod]
    split
    · decide
    · split <;> decide
  -- a `mod` field of 0 is used only where it does not mean that there is no base
  have hNoBase : ¬ (mod = 0 ∧ base.low = 5) := by
    rintro ⟨hZero, hRbp⟩
    rw [← hMod, if_neg (fun hBoth => hBoth.2 hRbp)] at hZero
    split at hZero <;> omega
  have hDisplacement : takeDisplacement mod ((if mod = 1 then leBytes 1 displacement.toNat
      else if mod = 2 then leBytes 4 displacement.toNat else []) ++ rest) =
        some (displacement.toInt, rest) := by
    have hShort := takeDisplacement_short displacement rest
    rw [← hMod]
    by_cases hZero : displacement = 0 ∧ base.low ≠ GpRegister.rbp.low
    · rw [if_pos hZero, hZero.1]
      rfl
    · rw [if_neg hZero]
      by_cases hFits : fitsInt8 displacement = true
      · simpa only [if_pos hFits, if_true] using hShort
      · simpa only [if_neg hFits, if_true, if_neg (show ¬ (2 = 1) by decide)] using hShort
  have hDestination := low_lt destination
  have hIndexLow := low_lt index
  have hBaseLow := low_lt base
  have hModRM := byte_fields mod destination.low 4 (by omega) hDestination (by omega)
  have hSib := byte_fields bits index.low base.low hScale.1 hIndexLow hBaseLow
  have hNotThree : ¬ mod = 3 := by omega
  have hFields : (mod * 64 + destination.low * 8 + 4) / 64 = mod ∧
      (mod * 64 + destination.low * 8 + 4) / 8 % 8 = destination.low ∧
      (mod * 64 + destination.low * 8 + 4) % 8 = 4 := by omega
  have hSibParts : (bits * 64 + index.low * 8 + base.low) / 64 = bits ∧
      (bits * 64 + index.low * 8 + base.low) / 8 % 8 = index.low ∧
      (bits * 64 + index.low * 8 + base.low) % 8 = base.low := by omega
  have hNumber : ¬ index.number = 4 := fun hFour => hIndex (number_eq_four.mp hFour)
  have hRex := decodeInstruction_emitRex true destination.high index.high base.high
    (show IsOpcode 0x8D by decide)
    (byte ((mod <<< 6) ||| (destination.low <<< 3) ||| 4) ::
      byte ((bits <<< 6) ||| (index.low <<< 3) ||| base.low) ::
      ((if mod = 1 then leBytes 1 displacement.toNat
        else if mod = 2 then leBytes 4 displacement.toNat else []) ++ rest))
  simp only [List.append_assoc, List.cons_append, List.nil_append]
  rw [hRex]
  simp [decodeOpcode, decodeModRM, hModRM, hSib, hFields, hSibParts, hNotThree, hNoBase,
    hDisplacement, hNumber, hScale.2, operandSizeOf]

-- ---
-- Constants
-- ---

def constantWord (size : OperandSize) (value : Int) : BitVec 64 :=
  if size = .dword then (BitVec.ofInt 32 value).setWidth 64 else BitVec.ofInt 64 value

theorem decodeModRM_register (rex : Rex) (subopcode : Nat) (hSub : subopcode < 8)
    (reg : GpRegister) (hB : rex.b = reg.high) (hR : rex.r = false) (rest : List UInt8) :
    decodeModRM rex (byte (0xC0 ||| (subopcode <<< 3) ||| reg.low) :: rest) =
      some (subopcode, .register reg, rest) := by
  have hReg := low_lt reg
  have hByte := byte_fields 3 subopcode reg.low (by decide) hSub hReg
  rw [show (3 <<< 6 : Nat) = 0xC0 from rfl] at hByte
  have hFields : (3 * 64 + subopcode * 8 + reg.low) / 64 = 3 ∧
      (3 * 64 + subopcode * 8 + reg.low) / 8 % 8 = subopcode ∧
      (3 * 64 + subopcode * 8 + reg.low) % 8 = reg.low := by omega
  simp only [decodeModRM, hByte, hFields.1, hFields.2.1, hFields.2.2, hR, hB, extended,
    Bool.false_eq_true, if_false, if_true]
  rw [← extended, extended_high_low, ofNumber_number]

theorem movOpcode_facts :
    IsOpcode (byte (0xB8 + r.low)) ∧ byte (0xB8 + r.low) ≠ 0x0F ∧ byte (0xB8 + r.low) ≠ 0x8B ∧
      byte (0xB8 + r.low) ≠ 0x89 ∧ byte (0xB8 + r.low) ≠ 0x88 ∧ byte (0xB8 + r.low) ≠ 0x8D ∧
      byte (0xB8 + r.low) ≠ 0x85 ∧
      ¬ (byte (0xB8 + r.low) = 0x83 ∨ byte (0xB8 + r.low) = 0x81) ∧
      byte (0xB8 + r.low) ≠ 0xC7 ∧
      (byte (0xB8 + r.low)).toNat / 8 = 23 ∧ (byte (0xB8 + r.low)).toNat % 8 = r.low := by
  cases r <;> decide

theorem movOpcode_decodes (w : Bool) (r : GpRegister) (v : Nat) :
    DecodesTo (emitRex w false false r.high ++
        byte (0xB8 + r.low) :: leBytes (if w then 8 else 4) v)
      ⟨.mov, if w then .qword else .dword, .register r,
        .immediate (Int.bmod v (256 ^ (if w then 8 else 4)))⟩ := by
  intro rest
  obtain ⟨hOpcode, h1, h2, h3, h4, h5, h6, h7, h8, hGroup, hRegister⟩ := movOpcode_facts r
  rw [List.append_assoc, List.cons_append, decodeInstruction_emitRex _ _ _ _ hOpcode]
  have hSigned := takeSigned_leBytes (if w then 8 else 4) v rest
  unfold decodeOpcode
  simp only [if_neg h1, if_neg h2, if_neg h3, if_neg h4, if_neg h5, if_neg h6, if_neg h7,
    if_neg h8, if_pos hGroup, hRegister, extended_high_low, ofNumber_number]
  cases w
  · simp only [operandSizeOf, Bool.false_eq_true, if_false, immediateBytes, reduceCtorEq] at hSigned ⊢
    rw [hSigned, Option.map_some]
  · simp only [operandSizeOf, if_true] at hSigned ⊢
    rw [hSigned, Option.map_some]

theorem ofInt_low_half {immediate : BitVec 64} (h : immediate.toNat ≥ 0xffffffff80000000) :
    BitVec.ofInt 64 (immediate.setWidth 32).toInt = immediate := by
  have hInt : immediate.toInt = (immediate.toNat : Int) - 2 ^ 64 := by
    rw [toInt_eq_toNat_cond, if_neg (by omega)]
    norm_num
  have hLow : (immediate.setWidth 32).toInt = immediate.toInt := by
    rw [toInt_eq_toNat_cond, toNat_setWidth, hInt]
    split <;> omega
  rw [hLow, ofInt_toInt]

theorem setWidth_low_half {immediate : BitVec 64} (h : immediate.toNat ≤ 2 ^ 32 - 1) :
    (immediate.setWidth 32).setWidth 64 = immediate := by
  apply eq_of_toNat_eq
  rw [toNat_setWidth, toNat_setWidth]
  omega

/-- **Every constant is loaded**, in whichever form. -/
theorem movRegImm64_decodes (immediate : BitVec 64) :
    ∃ size value, DecodesTo (emitMovRegImm64 r immediate)
        ⟨.mov, size, .register r, .immediate value⟩ ∧
      (size = .dword ∨ size = .qword) ∧ constantWord size value = immediate := by
  have hZeroExtend : ∀ v : BitVec 32, constantWord .dword (Int.bmod v.toNat (256 ^ 4)) =
      v.setWidth 64 := by
    intro v
    rw [constantWord, if_pos rfl, bmod_four, ofInt_toInt]
  unfold emitMovRegImm64
  by_cases hZero : immediate = 0
  · rw [if_pos hZero, hZero]
    exact ⟨.dword, _, movOpcode_decodes false r _, .inl rfl, hZeroExtend 0⟩
  rw [if_neg hZero]
  by_cases hSmall : immediate.toNat ≤ 2 ^ 32 - 1
  · rw [if_pos hSmall]
    exact ⟨.dword, _, movOpcode_decodes false r _, .inl rfl,
      (hZeroExtend _).trans (setWidth_low_half hSmall)⟩
  rw [if_neg hSmall]
  by_cases hNegative : immediate.toNat ≥ 0xffffffff80000000
  · rw [if_pos hNegative]
    refine ⟨.qword, (immediate.setWidth 32).toInt, ?_, .inr rfl, ofInt_low_half hNegative⟩
    intro rest
    have hModRM := decodeModRM_register ⟨true, true, false, false, r.high⟩ 0 (by decide)
      r rfl rfl (leBytes 4 (immediate.setWidth 32).toNat ++ rest)
    rw [show (0xC0 ||| (0 <<< 3) : Nat) = 0xC0 from rfl] at hModRM
    rw [List.append_assoc, List.cons_append, List.cons_append,
      decodeInstruction_emitRex _ _ _ _ (show IsOpcode 0xC7 by decide)]
    have hSigned := takeSigned_leBytes 4 (immediate.setWidth 32).toNat rest
    rw [bmod_four] at hSigned
    simp only [decodeOpcode, Bool.true_or, hModRM, bind_some, operandSizeOf, if_true,
      immediateBytes, hSigned, map_some]
    rfl
  · rw [if_neg hNegative]
    refine ⟨.qword, _, movOpcode_decodes true r _, .inr rfl, ?_⟩
    rw [constantWord, if_neg (by decide), if_pos rfl,
      show (256 ^ 8 : Nat) = 2 ^ 64 by norm_num, ← toInt_eq_toNat_bmod, ofInt_toInt]

variable {immediate : BitVec 32}

theorem aluRegImm32_decodes (subopcode : Nat) (hSub : subopcode < 8) (r : GpRegister)
    (hZero : ¬ ((subopcode = 0 ∨ subopcode = 1 ∨ subopcode = 5 ∨ subopcode = 6) ∧ immediate = 0))
    (hOnes : ¬ (subopcode = 4 ∧ immediate = BitVec.allOnes 32)) :
    DecodesTo (emitAluRegImm32 subopcode r immediate)
      ⟨.alu (.ofNumber subopcode), .qword, .register r, .immediate immediate.toInt⟩ := by
  have hField : subopcode &&& 7 = subopcode := by
    have h := Nat.and_two_pow_sub_one_of_lt_two_pow (n := 3) hSub
    exact h
  have hRex : ∀ rest, decodeModRM ⟨true, true, false, false, r.high⟩
      (byte (0xC0 ||| (subopcode <<< 3) ||| r.low) :: rest) = some (subopcode, .register r, rest) :=
    decodeModRM_register _ subopcode hSub r rfl rfl
  have hMod : subopcode % 8 = subopcode := Nat.mod_eq_of_lt hSub
  intro rest
  unfold emitAluRegImm32
  rw [if_neg hZero, if_neg hOnes, hField]
  by_cases hFits : fitsInt8 immediate = true
  · have hSigned := takeSigned_leBytes 1 immediate.toNat rest
    rw [bmod_byte hFits] at hSigned
    rw [if_pos hFits, List.append_assoc, List.cons_append, List.cons_append,
      decodeInstruction_emitRex _ _ _ _ (show IsOpcode 0x83 by decide)]
    simp only [decodeOpcode, Bool.true_or, hRex, bind_some, operandSizeOf, if_true, hMod,
      hSigned, map_some]
    rfl
  · have hSigned := takeSigned_leBytes 4 immediate.toNat rest
    rw [bmod_four] at hSigned
    rw [if_neg hFits, List.append_assoc, List.cons_append, List.cons_append,
      decodeInstruction_emitRex _ _ _ _ (show IsOpcode 0x81 by decide)]
    simp only [decodeOpcode, Bool.true_or, hRex, bind_some, operandSizeOf, if_true, hMod,
      if_neg (show ¬ (0x81 : UInt8) = 0x83 by decide), immediateBytes, hSigned, map_some]
    rfl

theorem testRegReg_decodes :
    DecodesTo (emitTestRegReg r) ⟨.test, .qword, .register r, .register r⟩ := by
  have h : ∀ r : GpRegister, ∃ rex modrm, emitTestRegReg r = [rex, 0x85, modrm] ∧
      ∀ rest, decodeInstruction (rex :: 0x85 :: modrm :: rest) =
        some (⟨.test, .qword, .register r, .register r⟩, rest) := by
    intro r
    cases r <;> exact ⟨_, _, rfl, fun _ => rfl⟩
  obtain ⟨rex, modrm, hBytes, hDecode⟩ := h r
  intro rest
  rw [hBytes]
  exact hDecode rest

/-- The encoders of arithmetic with a constant. -/
inductive AluImmediate
  | add | sub | and | or | xor | cmp
  deriving DecidableEq

def AluImmediate.emit : AluImmediate → GpRegister → BitVec 32 → List UInt8
  | .add => emitAddRegImm32
  | .sub => emitSubRegImm32
  | .and => emitAndRegImm32
  | .or => emitOrRegImm32
  | .xor => emitXorRegImm32
  | .cmp => emitCmpRegImm32

def AluImmediate.operation : AluImmediate → AluOperation
  | .add => .add
  | .sub => .sub
  | .and => .and
  | .or => .or
  | .xor => .xor
  | .cmp => .cmp

def AluImmediate.apply : AluImmediate → Word → Word → Word
  | .add, a, b => a + b
  | .sub, a, b => a - b
  | .and, a, b => a &&& b
  | .or, a, b => a ||| b
  | .xor, a, b => a ^^^ b
  | .cmp, a, _ => a

def AluImmediate.leftOut (op : AluImmediate) (immediate : BitVec 32) : Bool :=
  match op with
  | .add | .sub | .or | .xor => immediate == 0
  | .and => immediate == BitVec.allOnes 32
  | .cmp => false

variable {op : AluImmediate}

theorem leftOut_emit (h : op.leftOut immediate = true) (r : GpRegister) :
    op.emit r immediate = [] ∧ ∀ w, op.apply w (BitVec.ofInt 64 immediate.toInt) = w := by
  cases op
  case cmp => cases h
  case and =>
    obtain rfl : immediate = BitVec.allOnes 32 := of_decide_eq_true h
    refine ⟨rfl, fun w => ?_⟩
    exact BitVec.and_allOnes
  all_goals
    obtain rfl : immediate = 0 := of_decide_eq_true h
    refine ⟨rfl, fun w => ?_⟩
    simp [AluImmediate.apply]

theorem aluImmediate_decodes (h : op.leftOut immediate = false)
    (hTest : ¬ (op = .cmp ∧ immediate = 0)) (r : GpRegister) :
    DecodesTo (op.emit r immediate)
      ⟨.alu op.operation, .qword, .register r, .immediate immediate.toInt⟩ := by
  cases op
  case cmp =>
    have hNonzero : ¬ immediate = 0 := fun hZero => hTest ⟨rfl, hZero⟩
    show DecodesTo (if immediate = 0 then _ else _) _
    rw [if_neg hNonzero]
    exact aluRegImm32_decodes 7 (by decide) r (by simp) (by simp)
  case and =>
    have hNotOnes : ¬ immediate = allOnes 32 := of_decide_eq_false h
    exact aluRegImm32_decodes 4 (by decide) r (by simp) (by simpa using hNotOnes)
  all_goals have hNonzero : ¬ immediate = 0 := of_decide_eq_false h
  case add => exact aluRegImm32_decodes 0 (by decide) r (by simpa using hNonzero) (by simp)
  case sub => exact aluRegImm32_decodes 5 (by decide) r (by simpa using hNonzero) (by simp)
  case or => exact aluRegImm32_decodes 1 (by decide) r (by simpa using hNonzero) (by simp)
  case xor => exact aluRegImm32_decodes 6 (by decide) r (by simpa using hNonzero) (by simp)

theorem cmp_zero_flags (w : Word) : cmpRegReg w 0 = cmpRegImm32 w 0 := (cmpRegImm32_eq w 0).symm

theorem leaScaled_none_iff (destination base index : GpRegister) (scale : Nat)
    (displacement : BitVec 32) :
    emitLeaRegBaseIndexScaleDisp destination base index scale displacement = none ↔
      index = .rsp ∨ (scale ≠ 1 ∧ scale ≠ 2 ∧ scale ≠ 4 ∧ scale ≠ 8) := by
  have hBits : scaleBits scale = none ↔ scale ≠ 1 ∧ scale ≠ 2 ∧ scale ≠ 4 ∧ scale ≠ 8 := by
    unfold scaleBits
    split <;> simp_all
  unfold emitLeaRegBaseIndexScaleDisp
  by_cases hIndex : index = .rsp
  · rw [if_pos hIndex]
    exact ⟨fun _ => .inl hIndex, fun _ => rfl⟩
  · rw [if_neg hIndex, map_eq_none_iff, hBits]
    exact ⟨.inr, fun h => h.resolve_left hIndex⟩

/-- **The encodings decode to what was asked.** Every load, store and `lea` decodes to the
intended instruction and to nothing more or less; so does `lea` with a scaled index, which
is refused exactly where the architecture has no encoding; a constant is loaded whatever
form is picked; and arithmetic with a constant decodes to the operation asked for, except
that what would change nothing is left out and a comparison with zero is a test, with the
same flags. -/
theorem encodings_decode :
    (∀ (form : MemoryForm) (reg base : GpRegister) (displacement : BitVec 32),
      DecodesTo (form.emit reg base displacement) (form.intended reg base displacement)) ∧
    (∀ (destination base index : GpRegister) (scale : Nat) (displacement : BitVec 32),
      (emitLeaRegBaseIndexScaleDisp destination base index scale displacement = none ↔
        index = .rsp ∨ (scale ≠ 1 ∧ scale ≠ 2 ∧ scale ≠ 4 ∧ scale ≠ 8)) ∧
      ∀ bytes, emitLeaRegBaseIndexScaleDisp destination base index scale displacement = some bytes →
        DecodesTo bytes ⟨.lea, .qword, .register destination,
          .memory (some base) (some (index, scale)) displacement.toInt⟩) ∧
    (∀ (r : GpRegister) (immediate : BitVec 64),
      ∃ size value, DecodesTo (emitMovRegImm64 r immediate)
          ⟨.mov, size, .register r, .immediate value⟩ ∧
        (size = .dword ∨ size = .qword) ∧ constantWord size value = immediate) ∧
    ∀ (op : AluImmediate) (r : GpRegister) (immediate : BitVec 32),
      if op.leftOut immediate then
        op.emit r immediate = [] ∧ ∀ w, op.apply w (BitVec.ofInt 64 immediate.toInt) = w
      else if op = .cmp ∧ immediate = 0 then
        DecodesTo (op.emit r immediate) ⟨.test, .qword, .register r, .register r⟩ ∧
          ∀ w : Word, cmpRegReg w 0 = cmpRegImm32 w 0
      else
        DecodesTo (op.emit r immediate)
          ⟨.alu op.operation, .qword, .register r, .immediate immediate.toInt⟩ := by
  refine ⟨memoryForm_decodes, ?_, movRegImm64_decodes, ?_⟩
  · intro destination base index scale displacement
    exact ⟨leaScaled_none_iff _ _ _ _ _, fun bytes h => leaScaled_decodes h⟩
  · intro op r immediate
    by_cases hLeft : op.leftOut immediate = true
    · rw [if_pos hLeft]
      exact leftOut_emit hLeft r
    rw [if_neg hLeft]
    by_cases hTest : op = .cmp ∧ immediate = 0
    · rw [if_pos hTest]
      obtain ⟨rfl, rfl⟩ := hTest
      exact ⟨testRegReg_decodes r, cmp_zero_flags⟩
    · rw [if_neg hTest]
      exact aluImmediate_decodes (Bool.eq_false_iff.mpr hLeft) hTest r

theorem add_zero_not_encoded : ¬ ∀ (op : AluImmediate) (r : GpRegister) (immediate : BitVec 32),
      DecodesTo (op.emit r immediate)
        ⟨.alu op.operation, .qword, .register r, .immediate immediate.toInt⟩ := by
  intro h
  have hNone := h .add .rax 0 []
  revert hNone
  decide

end Mettle.Codegen
