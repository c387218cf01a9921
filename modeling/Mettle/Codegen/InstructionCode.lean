import Mettle.Codegen.StrengthReduction

/-!
# Mettle — the code of integer instructions

The specification of what `binary_emit_binary_integer` and `code_generator_binary_emit_unary`
emit: whichever of their paths an instruction takes (a power of two, an immediate, the
register of the destination, two registers), the code leaves the word of the operator.
-/

namespace Mettle.Codegen

open Mettle.IR Mettle.Lib Option BitVec

attribute [local simp] IntegerOp.text emitImmediateArithmetic

-- ---
-- Operators and constants
-- ---

/-- A value of `long long`. -/
def IsLongLong (a : Int) : Prop := -2 ^ 63 ≤ a ∧ a < 2 ^ 63

def Fits64 : IROperand → Prop
  | .int c => IsLongLong c
  | _ => True

/-- The operators of an integer instruction: those of `IntegerOp`, and the logical ones. -/
inductive BinaryOp
  | arith (op : IntegerOp)
  | logicalAnd
  | logicalOr
  deriving DecidableEq

def BinaryOp.text : BinaryOp → String
  | .arith op => op.text
  | .logicalAnd => "&&"
  | .logicalOr => "||"

attribute [local simp] BinaryOp.text

def BinaryOp.word (op : BinaryOp) (width : Nat) (x y : Word) : Option Word :=
  match op with
  | .arith op => resultWord op width x y
  | .logicalAnd => some (if x &&& y = 0 then 0 else 1)
  | .logicalOr => some (if x ||| y = 0 then 0 else 1)

-- ---
-- The code of an instruction
-- ---

variable (before : X86State) {context : BinaryFunctionContext} {instruction : IRInstruction}
  {operand : IROperand} {code : List X86} {context : IntegerContext} {register : GpRegister}

section Emission

variable {state : X86State} {op : BinaryOp}

variable {globalAddress : String → Word}

theorem emitRegisterOp_word {width : Nat} (hCode : emitRegisterOp op.text width = some code) :
    (executeCode globalAddress before code).map (·.registers .rax) =
      op.word width (before.registers .rax) (before.registers .r10) := by
  -- the logical operators end with the same test
  have hTest : ∀ alu : AluOp, (executeCode globalAddress before
      [.alu alu .rax .r10, .testReg .rax, .setccAl 0x95, .movzxEaxAl]).map (·.registers .rax) =
      some (if alu.apply (before.registers .rax) (before.registers .r10) = 0 then 0 else 1) := by
    intro alu
    simp only [executeCode_cons, X86.execute, bind_some, map_some, executeCode_nil, registers_set]
    rw [setcc_movzx]
    by_cases hZero : alu.apply (before.registers .rax) (before.registers .r10) = 0
    · rw [if_pos hZero]
      simp [hZero, cmpRegImm32, conditionHolds]
    · rw [if_neg hZero]
      simpa [cmpRegImm32, conditionHolds] using hZero
  cases op with
  | arith op => exact emitRegisterOp_executes before op width hCode
  | logicalAnd =>
    cases hCode
    exact hTest .and
  | logicalOr =>
    cases hCode
    exact hTest .or

theorem word_comm (hCommutative : isCommutative op.text = true) (width : Nat) (x y : Word) :
    op.word width x y = op.word width y x := by
  have hEqual : ∀ {n : Nat} (a b : BitVec n), (cmpRegReg a b).zero = (cmpRegReg b a).zero :=
    fun a b => Bool.beq_comm
  have hFlags : (emitRegRegCompare x y width).zero = (emitRegRegCompare y x width).zero := by
    unfold emitRegRegCompare
    split
    · exact hEqual _ _
    · exact hEqual _ _
  cases op with
  | arith op =>
    cases op
    case add => exact congrArg some (BitVec.add_comm x y)
    case mul => exact congrArg some (BitVec.mul_comm x y)
    case and => exact congrArg some (and_comm x y)
    case or => exact congrArg some (or_comm x y)
    case xor => exact congrArg some (BitVec.xor_comm x y)
    case eq =>
      show some (if (emitRegRegCompare x y width).zero = true then (1 : Word) else 0) = _
      rw [hFlags]
      rfl
    case ne =>
      show some (if (!(emitRegRegCompare x y width).zero) = true then (1 : Word) else 0) = _
      rw [hFlags]
      rfl
    all_goals cases hCommutative
  | logicalAnd => cases hCommutative
  | logicalOr => cases hCommutative

variable {immediate : Int}

theorem shift_count (h : 0 ≤ immediate ∧ immediate < 64) :
    (BitVec.ofInt 64 immediate : Word).toNat % 256 = immediate.toNat := by
  rw [toNat_ofInt]
  omega

variable {onRight : Bool}

theorem immediateArithmetic_executes
    (hCode : emitImmediateArithmetic op.text immediate onRight register = some code) (width : Nat) :
    ∃ after, executeCode globalAddress before code = some after ∧
      op.word width (before.registers register) (BitVec.ofInt 64 immediate) =
        some (after.registers register) := by
  have hShift : ∀ shiftOp : ShiftOp, (if true ∧ onRight = true ∧ 0 ≤ immediate ∧ immediate < 64 then
        some [X86.shiftImm shiftOp register immediate.toNat] else none) = some code →
      ∃ after, executeCode globalAddress before code = some after ∧
        some (shiftOp.apply (before.registers register)
          ((BitVec.ofInt 64 immediate : Word).toNat % 256)) = some (after.registers register) := by
    intro shiftOp h
    split at h
    · rename_i hCount
      cases h
      rw [shift_count hCount.2.2]
      exact ⟨_, rfl, congrArg some (registers_set _ _).symm⟩
    · cases h
  cases op with
  | arith op =>
    cases op
    case sub =>
      cases onRight with
      | true =>
        cases hCode
        exact ⟨_, rfl, congrArg some (registers_set _ _).symm⟩
      | false => simp at hCode
    case shl =>
      refine hShift .shl ?_
      simpa using hCode
    case shr =>
      refine hShift .sar ?_
      simpa using hCode
    case add | mul | and | or | xor =>
      cases hCode
      exact ⟨_, rfl, congrArg some (registers_set _ _).symm⟩
    all_goals simp at hCode
  | logicalAnd => simp at hCode
  | logicalOr => simp at hCode

theorem immediateCompare_executes
    (hCode : emitImmediateCompare op.text immediate onRight = some code) :
    ∃ after, executeCode globalAddress before code = some after ∧
      op.word 8 (before.registers .rax) (BitVec.ofInt 64 immediate) =
        some (after.registers .rax) := by
  unfold emitImmediateCompare at hCode
  split at hCode
  · obtain ⟨setcc, hSetcc, rfl⟩ := map_eq_some_iff.mp hCode
    simp only [executeCode_cons, X86.execute, bind_some, map_some, executeCode_nil,
      some.injEq, exists_eq_left', registers_set]
    rw [setcc_movzx, cmpRegImm32_eq]
    cases op with
    | arith op =>
      cases op
      case eq | ne | lt | le | gt | ge =>
        cases hSetcc
        rfl
      all_goals cases hSetcc
    | logicalAnd => cases hSetcc
    | logicalOr => cases hSetcc
  · cases hCode

def placedWord (context : BinaryFunctionContext) (state : X86State) (destination : IROperand)
    (operand : IROperand) : Word :=
  match operand with
  | .symbol name =>
    match operandRegister context destination with
    | some register =>
      if context.assignedRegister (context.aliasOf name) = some register then
        state.registers register
      else operandWord context state operand
    | none => operandWord context state operand
  | operand => operandWord context state operand

theorem placedLoad_executes (state : X86State) {destination : IROperand}
    (hRegister : operandRegister context destination = some register)
    (hCode : emitOperandLoadCode context operand register = some code) :
    ∃ after, executeCode context.globalAddress state code = some after ∧
      after.registers register = placedWord context state destination operand := by
  cases operand with
  | none =>
    cases hCode
    exact ⟨_, rfl, registers_set _ _⟩
  | int c =>
    cases hCode
    exact ⟨_, rfl, registers_set _ _⟩
  | temp name =>
    obtain ⟨offset, hOffset, rfl⟩ := map_eq_some_iff.mp hCode
    refine ⟨_, rfl, (registers_set _ _).trans ?_⟩
    simp only [placedWord, operandWord, homeWord, hOffset]
    rfl
  | symbol name =>
    simp only [emitOperandLoadCode] at hCode
    simp only [placedWord, hRegister, operandWord]
    generalize context.aliasOf name = name at hCode ⊢
    split at hCode
    · rename_i hNone _ _
      split at hCode
      · cases hCode
        refine ⟨_, rfl, (registers_set _ _).trans ?_⟩
        rw [hNone, if_neg (some_ne_none register).symm]
      · cases hCode
    · unfold emitSymbolLoad at hCode
      unfold symbolWord
      cases hAssigned : context.assignedRegister name with
      | some own =>
        rw [hAssigned] at hCode
        cases hCode
        by_cases hSame : own = register
        · subst hSame
          unfold emitRegRegMove
          rw [if_pos rfl]
          exact ⟨state, rfl, by simp⟩
        · refine ⟨_, emitRegRegMove_executes (Ne.symm hSame) _, (registers_set _ _).trans ?_⟩
          simp [hSame]
      | none =>
        rw [hAssigned] at hCode
        cases hOffset : context.symbolOffset name with
        | some offset =>
          rw [hOffset] at hCode
          cases hCode
          cases hType : context.symbolType name with
          | none => exact ⟨_, rfl, (registers_set _ _).trans (by simp [placeWord])⟩
          | some type =>
            exact ⟨_, emitTypedLoad_executes register (slot offset) type,
              (registers_set _ _).trans (by simp)⟩
        | none =>
          rw [hOffset] at hCode
          obtain ⟨type, hType, rfl⟩ := map_eq_some_iff.mp hCode
          refine ⟨_, emitTypedLoad_executes register (.global name) type,
            (registers_set _ _).trans ?_⟩
          simp_all
  | _ => cases hCode

def LeavesWord (context : IntegerContext) (state : X86State) (op : BinaryOp)
    (instruction : IRInstruction) (code : List X86) (value : IROperand → Word) : Prop :=
  (executeCode context.globalAddress state code).map
      (homeWord context.toBinaryFunctionContext · instruction.dest) =
    (op.word (compareWidth context instruction.lhs instruction.rhs) (value instruction.lhs)
      (value instruction.rhs)).map (storedWord context.toBinaryFunctionContext instruction.dest)

theorem compareWidth_int_right (lhs : IROperand) (c : Int) :
    compareWidth context lhs (.int c) = 8 := by
  unfold compareWidth operandType
  split <;> simp_all

theorem compareWidth_int_left (rhs : IROperand) (c : Int) :
    compareWidth context (.int c) rhs = 8 := rfl

theorem powerOfTwo_word {c : Int} {shift : Nat} (hFits : IsLongLong c)
    (hPower : powerOfTwoDivisor op.text (.int c) = some (c, shift)) (width : Nat) :
    ∃ after, executeCode globalAddress before (emitPowerOfTwo op.text c shift) = some after ∧
      op.word width (before.registers .rax) (BitVec.ofInt 64 c) = some (after.registers .rax) := by
  simp only [powerOfTwoDivisor] at hPower
  split at hPower
  case isFalse => cases hPower
  rename_i hOp
  obtain ⟨found, hFound, hPair⟩ := Option.map_eq_some_iff.mp hPower
  obtain rfl : found = shift := (Prod.mk.inj hPair).2
  obtain rfl := eq_pow_of_extract hFound
  have hShift : found ≤ 62 := by
    by_contra hBig
    have hLe : (2 : Int) ^ 63 ≤ 2 ^ found := pow_le_pow_right₀ (by decide) (by omega)
    have hHigh : (2 : Int) ^ found < 2 ^ 63 := hFits.2
    omega
  obtain ⟨hOne, hMax⟩ := pow_bounds hShift
  have hToInt : (BitVec.ofInt 64 (2 ^ found) : Word).toInt = 2 ^ found := by
    rw [BitVec.toInt_ofInt]
    exact Int.bmod_eq_of_le (by omega) (by omega)
  have hQuotient : idivWord (if (before.registers .rax).msb then -1 else 0)
      (before.registers .rax) (BitVec.ofInt 64 (2 ^ found)) =
      some (wordOf ((before.registers .rax).toInt.tdiv (2 ^ found)),
        wordOf ((before.registers .rax).toInt.tmod (2 ^ found))) := by
    rw [idivWord_eq, hToInt, if_neg (by omega)]
    intro hZero
    rw [hZero] at hToInt
    have : (0 : Word).toInt = 0 := rfl
    omega
  cases op with
  | arith op =>
    cases op
    case div =>
      obtain ⟨after, hRun, hWord, -⟩ := powerOfTwo_quotient globalAddress before hShift
      refine ⟨after, hRun, ?_⟩
      simp only [BinaryOp.word, resultWord, hQuotient, hWord]
      rfl
    case mod =>
      obtain ⟨after, hRun, hWord, -⟩ := powerOfTwo_remainder globalAddress before hShift
      refine ⟨after, hRun, ?_⟩
      simp only [BinaryOp.word, resultWord, hQuotient, hWord]
      rfl
    all_goals simp at hOp
  | logicalAnd => simp at hOp
  | logicalOr => simp at hOp

theorem usableImmediate_eq_some {op : String}
    (h : usableImmediate op instruction = some (operand, immediate, onRight)) :
    (onRight = true ∧ operand = instruction.lhs ∧ instruction.rhs = .int immediate) ∨
      (onRight = false ∧ operand = instruction.rhs ∧ instruction.lhs = .int immediate ∧
        isCommutative op = true) := by
  obtain ⟨hOperand, -⟩ := filter_eq_some_iff.mp h
  unfold immediateOperand at hOperand
  dsimp only at hOperand
  split at hOperand
  · rename_i found hFound
    obtain ⟨rfl, rfl, rfl⟩ : instruction.lhs = operand ∧ found = immediate ∧ true = onRight := by
      simpa using hOperand
    left
    split at hFound
    · exact ⟨rfl, rfl, immediate32_eq_some hFound⟩
    · cases hFound
  · obtain ⟨found, hFound, hTriple⟩ := map_eq_some_iff.mp hOperand
    obtain ⟨rfl, rfl, rfl⟩ : instruction.rhs = operand ∧ found = immediate ∧ false = onRight := by
      simpa using hTriple
    right
    split at hFound
    · rename_i hCommutative
      exact ⟨rfl, rfl, immediate32_eq_some hFound, hCommutative⟩
    · cases hFound

theorem emitWithImmediate_executes (state : X86State) (hDestination : instruction.dest ≠ .none)
    (hCode : emitWithImmediate context op.text instruction operand immediate onRight = some code) :
    ∃ value : IROperand → Word, (value = operandWord context state ∨
        value = placedWord context state instruction.dest) ∧
      (executeCode context.globalAddress state code).map (homeWord context · instruction.dest) =
        (op.word 8 (value operand) (BitVec.ofInt 64 immediate)).map
          (storedWord context instruction.dest) := by
  unfold emitWithImmediate at hCode
  split at hCode
  · -- in the register of the destination
    rename_i register _ hRegister
    simp only [bind_eq_bind, bind_eq_some_iff, pure_def, some.injEq] at hCode
    obtain ⟨loadCode, hLoad, opCode, hOp, rfl⟩ := hCode
    obtain ⟨loaded, hLoaded, hWord⟩ := placedLoad_executes state hRegister hLoad
    obtain ⟨after, hAfter, hResult⟩ :=
      immediateArithmetic_executes loaded hOp 8
    refine ⟨_, Or.inr rfl, ?_⟩
    rw [executeCode_append, hLoaded, bind_some, hAfter, ← hWord, hResult]
    obtain ⟨name, hName⟩ : ∃ name, instruction.dest = .symbol name := by
      cases hDest : instruction.dest <;> rw [hDest] at hRegister <;>
        first | exact ⟨_, rfl⟩ | cases hRegister
    rw [hName] at hRegister
    have hAssigned : context.assignedRegister name = some register := hRegister
    simp [hName, homeWord, symbolWord, storedWord, hAssigned]
  · -- through `rax`
    simp only [bind_eq_bind, bind_eq_some_iff, pure_def, some.injEq] at hCode
    obtain ⟨opCode, hOp, loadCode, hLoad, storeCode, hStore, rfl⟩ := hCode
    have hLoaded := emitOperandLoad_executes state
      (show GpRegister.rax.isScratch = true by decide) hLoad
    obtain ⟨after, hAfter, hResult⟩ : ∃ after, executeCode context.globalAddress
        (state.set .rax (operandWord context state operand)) opCode = some after ∧
        op.word 8 ((state.set .rax (operandWord context state
          operand)).registers .rax) (BitVec.ofInt 64 immediate) = some (after.registers .rax) := by
      rcases or_eq_some_iff.mp hOp with hArithmetic | ⟨-, hCompare⟩
      · exact immediateArithmetic_executes _ hArithmetic 8
      · exact immediateCompare_executes _ hCompare
    rw [registers_set] at hResult
    obtain ⟨final, hFinal, hHome⟩ := emitDestinationStore_executes after
      (show GpRegister.rax.isScratch = true by decide) hDestination hStore
    refine ⟨_, Or.inl rfl, ?_⟩
    rw [List.append_assoc, executeCode_append, hLoaded, bind_some, executeCode_append,
      hAfter, bind_some, hFinal, hResult, map_some, map_some, hHome]

/-- **The code of every integer instruction.** -/
theorem emitBinaryInteger_executes (state : X86State) (hText : instruction.text = some op.text)
    (hDestination : instruction.dest ≠ .none) (hFits : Fits64 instruction.rhs)
    (hCode : emitBinaryInteger context instruction = some code) :
    ∃ value : IROperand → Word, (value = operandWord context state ∨
        value = placedWord context state instruction.dest) ∧
      LeavesWord context state op instruction code value := by
  simp only [emitBinaryInteger, hText] at hCode
  unfold LeavesWord
  split at hCode
  · rename_i c shift hPower
    obtain ⟨hRhs, hPower⟩ : instruction.rhs = .int c ∧
        powerOfTwoDivisor op.text (.int c) = some (c, shift) := by
      cases hRhs : instruction.rhs with
      | int found =>
        rw [hRhs] at hPower
        have hSame : found = c := by
          simp only [powerOfTwoDivisor] at hPower
          split at hPower
          · obtain ⟨_, -, hPair⟩ := Option.map_eq_some_iff.mp hPower
            exact (Prod.mk.inj hPair).1
          · cases hPower
        subst hSame
        exact ⟨rfl, hPower⟩
      | _ =>
        rw [hRhs] at hPower
        cases hPower
    simp only [Option.bind_eq_bind, Option.bind_eq_some_iff, Option.pure_def,
      Option.some.injEq] at hCode
    obtain ⟨loadCode, hLoad, storeCode, hStore, rfl⟩ := hCode
    have hLoaded := emitOperandLoad_executes state
      (show GpRegister.rax.isScratch = true by decide) hLoad
    rw [hRhs] at hFits
    obtain ⟨after, hAfter, hResult⟩ := powerOfTwo_word
      (state.set .rax (operandWord context state instruction.lhs))
      hFits hPower
      (compareWidth context instruction.lhs (.int c))
    obtain ⟨final, hFinal, hHome⟩ := emitDestinationStore_executes after
      (show GpRegister.rax.isScratch = true by decide) hDestination hStore
    refine ⟨_, Or.inl rfl, ?_⟩
    rw [hRhs, List.append_assoc, executeCode_append, hLoaded, Option.bind_some,
      executeCode_append, hAfter, Option.bind_some, hFinal, Option.map_some, hHome]
    exact (congrArg (Option.map _) hResult).symm
  split at hCode
  · rename_i operand immediate onRight hUsable
    obtain ⟨value, hValue, hRun⟩ := emitWithImmediate_executes state hDestination hCode
    refine ⟨value, hValue, hRun.trans ?_⟩
    have hConstant : value (.int immediate) = BitVec.ofInt 64 immediate := by
      rcases hValue with rfl | rfl <;> rfl
    rcases usableImmediate_eq_some hUsable with ⟨-, rfl, hRhs⟩ | ⟨-, rfl, hLhs, hCommutative⟩
    · rw [hRhs, compareWidth_int_right, hConstant]
    · rw [hLhs, compareWidth_int_left, hConstant, word_comm hCommutative]
  · exact ⟨_, Or.inl rfl, emitGeneral_runs state hDestination
      (fun before _ hOp => emitRegisterOp_word before hOp) hCode⟩

def OwnRegisters (context : BinaryFunctionContext) : Prop :=
  ∀ name other register, context.assignedRegister name = some register →
    context.assignedRegister other = some register → name = other

theorem placedWord_cases (hOwn : OwnRegisters context)
    (state : X86State) (destination operand : IROperand) :
    placedWord context state destination operand = operandWord context state operand ∨
      ∃ name register, destination = .symbol name ∧ context.assignedRegister name = some register ∧
        operandWord context state operand =
          movedWord (context.symbolType name) (placedWord context state destination operand) := by
  cases operand with
  | symbol name =>
    cases hRegister : operandRegister context destination with
    | none => exact Or.inl (by simp only [placedWord, hRegister])
    | some register =>
      by_cases hSame : context.assignedRegister (context.aliasOf name) = some register
      · right
        cases destination with
        | symbol other =>
          have hOther : context.assignedRegister other = some register := hRegister
          obtain hAlias := hOwn _ _ _ hSame hOther
          refine ⟨other, register, rfl, hOther, ?_⟩
          simp only [placedWord, hRegister, hSame, if_true, operandWord, symbolWord]
          rw [hAlias]
        | _ => cases hRegister
      · exact Or.inl (by simp [placedWord, hRegister, hSame])
  | _ => exact Or.inl rfl

theorem emitBinaryInteger_temp (state : X86State) {op : BinaryOp}
    {name : String} (hText : instruction.text = some op.text)
    (hTemp : instruction.dest = .temp name) (hFits : Fits64 instruction.rhs)
    (hCode : emitBinaryInteger context instruction = some code) :
    (executeCode context.globalAddress state code).map (homeWord context · (.temp name)) =
      op.word (compareWidth context instruction.lhs instruction.rhs)
        (operandWord context state instruction.lhs)
        (operandWord context state instruction.rhs) := by
  obtain ⟨value, hValue, hRun⟩ :=
    emitBinaryInteger_executes state hText (by rw [hTemp]; exact nofun) hFits hCode
  have hLoaded : value = operandWord context state := by
    rcases hValue with rfl | rfl
    · rfl
    · funext operand
      rw [hTemp]
      cases operand <;> rfl
  subst hLoaded
  unfold LeavesWord at hRun
  rw [hTemp] at hRun
  rw [hRun]
  exact map_id'

end Emission

-- ---
-- Unary instructions
-- ---

/-- The operators on `rax`, without `popcnt`, which is not folded. -/
def emitUnaryOp (op : String) : Option (List X86) :=
  if op = "-" then some [.neg .rax]
  else if op = "!" then some [.testReg .rax, .setccAl 0x94, .movzxEaxAl]
  else if op = "~" then some [.not .rax]
  else if op = "+" then some []
  else none

/-- `code_generator_binary_emit_unary`, for integers. -/
def emitUnary (context : BinaryFunctionContext) (instruction : IRInstruction) :
    Option (List X86) := do
  let op ← instruction.text
  let loadCode ← emitOperandLoadCode context instruction.lhs .rax
  let opCode ← emitUnaryOp op
  let storeCode ← emitDestinationStoreCode context instruction.dest .rax
  return loadCode ++ opCode ++ storeCode

def unaryWord (op : String) (x : Word) : Option Word :=
  if op = "-" then some (-x)
  else if op = "!" then some (if x = 0 then 1 else 0)
  else if op = "~" then some (~~~x)
  else if op = "+" then some x
  else none

theorem emitUnaryOp_word (globalAddress : String → Word) (before : X86State) {op : String}
    {opCode : List X86} (hCode : emitUnaryOp op = some opCode) :
    ∃ after, executeCode globalAddress before opCode = some after ∧
      unaryWord op (before.registers .rax) = some (after.registers .rax) := by
  unfold emitUnaryOp at hCode
  split at hCode
  · subst op
    cases hCode
    refine ⟨_, rfl, congrArg some ?_⟩
    show -before.registers .rax = (before.set .rax (-before.registers .rax)).registers .rax
    rw [registers_set]
  split at hCode
  · subst op
    cases hCode
    simp only [executeCode_cons, X86.execute, bind_some, map_some, executeCode_nil,
      some.injEq, exists_eq_left', registers_set]
    rw [setcc_movzx]
    show some (if before.registers .rax = 0 then (1 : Word) else 0) = _
    simp [conditionHolds, cmpRegImm32]
  split at hCode
  · subst op
    cases hCode
    exact ⟨_, rfl, congrArg some (registers_set _ _).symm⟩
  split at hCode
  · subst op
    cases hCode
    exact ⟨before, rfl, rfl⟩
  · cases hCode

variable (state : X86State)

/-- **The code of every unary instruction.** -/
theorem emitUnary_executes
    {op : String} (hText : instruction.text = some op) (hDestination : instruction.dest ≠ .none)
    (hCode : emitUnary context instruction = some code) :
    (executeCode context.globalAddress state code).map (homeWord context · instruction.dest) =
      (unaryWord op (operandWord context state instruction.lhs)).map
        (storedWord context instruction.dest) := by
  simp only [emitUnary, hText, bind_eq_bind, bind_some,
    bind_eq_some_iff, pure_def, some.injEq] at hCode
  obtain ⟨loadCode, hLoad, opCode, hOp, storeCode, hStore, rfl⟩ := hCode
  have hLoaded := emitOperandLoad_executes state
    (show GpRegister.rax.isScratch = true by decide) hLoad
  obtain ⟨after, hAfter, hWord⟩ := emitUnaryOp_word context.globalAddress
    (state.set .rax (operandWord context state instruction.lhs)) hOp
  rw [registers_set] at hWord
  obtain ⟨final, hFinal, hHome⟩ := emitDestinationStore_executes after
    (show GpRegister.rax.isScratch = true by decide) hDestination hStore
  rw [List.append_assoc, executeCode_append, hLoaded, bind_some, executeCode_append,
    hAfter, bind_some, hFinal, hWord, map_some, map_some, hHome]

-- ---
-- Branches
-- ---

section Branches

/-- The code in front of the jump of `IR_OP_BRANCH_ZERO`. -/
def emitBranchZeroTest (context : BinaryFunctionContext) (operand : IROperand) :
    Option (List X86) :=
  (emitOperandLoadCode context operand .rax).map (· ++ [.testReg .rax])

/-- The code in front of the jump of `IR_OP_BRANCH_EQ`. -/
def emitBranchEqTest (context : IntegerContext) (lhs rhs : IROperand) : Option (List X86) := do
  let rhsCode ← emitOperandLoadCode context.toBinaryFunctionContext rhs .r10
  let lhsCode ← emitOperandLoadCode context.toBinaryFunctionContext lhs .rax
  return rhsCode ++ lhsCode ++ [.cmp (compareWidth context lhs rhs) .rax .r10]

/-- Whether the `je` behind the code jumps. -/
def jumpTaken (globalAddress : String → Word) (state : X86State) (code : List X86) : Option Bool :=
  ((executeCode globalAddress state code).bind (·.flags)).map (conditionHolds 0x84)

theorem branchZero_taken (hCode : emitBranchZeroTest context operand = some code) :
    jumpTaken context.globalAddress state code = some (operandWord context state operand == 0) := by
  obtain ⟨loadCode, hLoad, rfl⟩ := map_eq_some_iff.mp hCode
  have hLoaded := emitOperandLoad_executes state
    (show GpRegister.rax.isScratch = true by decide) hLoad
  unfold jumpTaken
  rw [executeCode_append, hLoaded, bind_some]
  rfl

theorem branchEq_taken {lhs rhs : IROperand}
    (hCode : emitBranchEqTest context lhs rhs = some code) :
    jumpTaken context.globalAddress state code =
      some (emitRegRegCompare (operandWord context state lhs) (operandWord context state rhs)
        (compareWidth context lhs rhs)).zero := by
  simp only [emitBranchEqTest, bind_eq_bind, bind_eq_some_iff, pure_def, some.injEq] at hCode
  obtain ⟨rhsCode, hRhs, lhsCode, hLhs, rfl⟩ := hCode
  unfold jumpTaken
  rw [executeCode_append, loadPair_executes state hRhs hLhs, bind_some]
  rfl

def emitBranchTest (context : IntegerContext) (instruction : IRInstruction) : Option (List X86) :=
  match instruction.op with
  | .branchZero => emitBranchZeroTest context.toBinaryFunctionContext instruction.lhs
  | .branchEq => emitBranchEqTest context instruction.lhs instruction.rhs
  | _ => none

end Branches

end Mettle.Codegen
