import Mettle.Codegen.InstructionCode

/-!
# Mettle — locals of a narrow type

A local of less than 64 bits has a slot or a register of 64. What the back end stores there
it stores at the width that `symbol_table_lookup` gives for the name, and by the time code is
emitted the table knows globals only: a local is stored whole, and read whole. An assignment
reduces its value in one place, where a temp is loaded to the register of a 32-bit local.

So a value wraps to the type of a local only by that path, or by having its name in common
with a global of the same type. Any other value has to be in the range of the type already.
-/

namespace Mettle.Codegen

open Mettle.IR Mettle.Lib List Option BitVec

-- ---
-- Assignments
-- ---

/-- `code_generator_binary_emit_operand_load`, but with the width of a 32-bit destination if
the operand is a temp (`code_generator_binary_emit_temp_stack_load`). -/
def emitPromotedLoad (context : IntegerContext) (destination : Option IntType)
    (operand : IROperand) (register : GpRegister) : Option (List X86) :=
  match operand, destination with
  | .temp name, some type =>
    if type.bytes = 4 then
      (context.tempOffset name).map fun offset => emitTypedLoad register (slot offset) type
    else emitOperandLoadCode context.toBinaryFunctionContext operand register
  | _, _ => emitOperandLoadCode context.toBinaryFunctionContext operand register

/-- `IR_OP_ASSIGN` of an integer. -/
def emitAssignCode (context : IntegerContext) (instruction : IRInstruction) : Option (List X86) :=
  let throughRax : Option (List X86) := do
    let loadCode ← emitOperandLoadCode context.toBinaryFunctionContext instruction.lhs .rax
    let storeCode ← emitDestinationStoreCode context.toBinaryFunctionContext instruction.dest .rax
    return loadCode ++ storeCode
  match instruction.dest with
  | .symbol name =>
    -- the copy that made the alias
    if context.aliasOf name ≠ name ∧ instruction.lhs = .symbol (context.aliasOf name) then some []
    else
      match context.assignedRegister name with
      | some register =>
        emitPromotedLoad context (operandType context instruction.dest) instruction.lhs register
      | none => throughRax
  | _ => throughRax

def emitIntegerInstruction (context : IntegerContext) (instruction : IRInstruction) :
    Option (List X86) :=
  match instruction.op with
  | .assign => emitAssignCode context instruction
  | .binary => emitBinaryInteger context instruction
  | .unary => emitUnary context.toBinaryFunctionContext instruction
  | _ => none

-- ---
-- The value of an expression
-- ---

def BinaryOp.all : List BinaryOp :=
  [.arith .add, .arith .sub, .arith .mul, .arith .div, .arith .mod, .arith .shl, .arith .shr,
    .arith .and, .arith .or, .arith .xor, .arith .eq, .arith .ne, .arith .lt, .arith .le,
    .arith .gt, .arith .ge, .logicalAnd, .logicalOr]

def BinaryOp.ofText (text : String) : Option BinaryOp :=
  BinaryOp.all.find? fun op => op.text == text

def instructionWord (context : IntegerContext) (state : X86State) (instruction : IRInstruction) :
    Option Word :=
  let word := operandWord context.toBinaryFunctionContext state
  match instruction.op, instruction.text with
  | .assign, _ => some (word instruction.lhs)
  | .binary, some text =>
    (BinaryOp.ofText text).bind fun op =>
      op.word (compareWidth context instruction.lhs instruction.rhs) (word instruction.lhs)
        (word instruction.rhs)
  | .unary, some text => unaryWord text (word instruction.lhs)
  | _, _ => none

theorem text_of_ofText {text : String} {op : BinaryOp} (h : BinaryOp.ofText text = some op) :
    op.text = text := by
  simpa using find?_some h

-- ---
-- When a value wraps
-- ---

def LoadedNarrow (context : IntegerContext) (type : IntType) (x : String)
    (instruction : IRInstruction) : Prop :=
  type.bytes = 4 ∧ (context.assignedRegister x).isSome = true ∧
    context.declaredType x = some type ∧ instruction.op = .assign ∧
    ∃ name, instruction.lhs = .temp name

def Wraps (context : IntegerContext) (type : IntType) (x : String) (instruction : IRInstruction)
    (v : Int) : Prop :=
  match context.symbolType x with
  | none => type.InRange v ∨ LoadedNarrow context type x instruction
  -- the local has its name in common with a global, and the width of the global
  | some known => known = type ∧ context.assignedRegister x = none

/-- A local with a home, declared with the type or a parameter, and not read through another
symbol. -/
structure LocalOf (context : IntegerContext) (type : IntType) (x : String) : Prop where
  home : (context.assignedRegister x).isSome = true ∨ (context.symbolOffset x).isSome = true
  declared : context.declaredType x = some type ∨ context.declaredType x = none
  notAliased : context.aliasOf x = x

section Reading

variable {context : IntegerContext} {state : X86State} {type : IntType} {x : String}
  {instruction : IRInstruction} {code : List X86} {w : Word}

theorem LocalOf.operandWord (hLocal : LocalOf context type x) (state : X86State) :
    operandWord context state (.symbol x) =
      symbolWord context state x := by
  simp only [Codegen.operandWord, hLocal.notAliased]
  split
  · rename_i hRegister hOffset _
    have hHome := hLocal.home
    rw [hRegister, hOffset] at hHome
    rcases hHome with h | h <;> cases h
  · rfl

theorem placedWord_eq (hOwn : OwnRegisters context)
    (hUnknown : context.symbolType x = none) (state : X86State) (operand : IROperand) :
    placedWord context state (.symbol x) operand =
      Codegen.operandWord context state operand := by
  rcases placedWord_cases hOwn state (.symbol x) operand with hSame | ⟨name, _, hName, -, hMoved⟩
  · exact hSame
  · cases hName
    rw [hMoved, hUnknown]
    rfl

theorem operator_stores (hOwn : OwnRegisters context)
    (hKnown : context.symbolType x = none ∨ context.assignedRegister x = none)
    (hDest : instruction.dest = .symbol x) (hFits : Fits64 instruction.rhs)
    (hOp : instruction.op ≠ .assign)
    (hCode : emitIntegerInstruction context instruction = some code)
    (hWord : instructionWord context state instruction = some w) :
    ∃ final, executeCode context.globalAddress state code = some final ∧
      symbolWord context final x = storedWord context (.symbol x) w := by
  have hDestination : instruction.dest ≠ .none := by
    rw [hDest]
    exact nofun
  unfold emitIntegerInstruction at hCode
  unfold instructionWord at hWord
  split at hCode
  · rename_i hAssign
    exact absurd hAssign hOp
  · rename_i hBinary
    rw [hBinary] at hWord
    cases hText : instruction.text with
    | none =>
      rw [hText] at hWord
      cases hWord
    | some text =>
      rw [hText] at hWord
      obtain ⟨op, hOfText, hWord⟩ := bind_eq_some_iff.mp hWord
      rw [← text_of_ofText hOfText] at hText
      obtain ⟨value, hValue, hRun⟩ :=
        emitBinaryInteger_executes state hText hDestination hFits hCode
      have hLoaded : value = Codegen.operandWord context state := by
        rcases hValue with rfl | rfl
        · rfl
        · funext operand
          rw [hDest]
          rcases hKnown with hUnknown | hSlot
          · exact placedWord_eq hOwn hUnknown state operand
          · cases operand <;> simp only [placedWord, operandRegister, hSlot]
      subst hLoaded
      unfold LeavesWord at hRun
      rw [hWord, hDest, map_some] at hRun
      exact map_eq_some_iff.mp hRun
  · rename_i hUnary
    rw [hUnary] at hWord
    cases hText : instruction.text with
    | none =>
      rw [hText] at hWord
      cases hWord
    | some text =>
      rw [hText] at hWord
      have hRun := emitUnary_executes state hText hDestination hCode
      have hUnaryWord : unaryWord text (Codegen.operandWord context state
        instruction.lhs) = some w := hWord
      rw [hUnaryWord, hDest, map_some] at hRun
      exact map_eq_some_iff.mp hRun
  · cases hCode

theorem assign_slot (hLocal : LocalOf context type x) (hSlot : context.assignedRegister x = none)
    (hDest : instruction.dest = .symbol x)
    (hCode : emitAssignCode context instruction = some code) :
    ∃ final, executeCode context.globalAddress state code = some final ∧
      symbolWord context final x = storedWord context (.symbol x)
          (Codegen.operandWord context state instruction.lhs) := by
  simp only [emitAssignCode, hDest, hLocal.notAliased, ne_eq, not_true_eq_false, false_and,
    if_false, hSlot, Option.bind_eq_bind, Option.bind_eq_some_iff, Option.pure_def,
    Option.some.injEq] at hCode
  obtain ⟨loadCode, hLoad, storeCode, hStore, rfl⟩ := hCode
  have hLoaded := emitOperandLoad_executes state
    (show GpRegister.rax.isScratch = true by decide) hLoad
  obtain ⟨final, hFinal, hHome⟩ := emitDestinationStore_executes
    (state.set .rax (Codegen.operandWord context state instruction.lhs))
    (show GpRegister.rax.isScratch = true by decide)
    (show IROperand.symbol x ≠ .none from nofun) hStore
  exact ⟨final, by rw [executeCode_append, hLoaded, Option.bind_some, hFinal], hHome⟩

theorem assign_register (hOwn : OwnRegisters context)
    (hLocal : LocalOf context type x) (hUnknown : context.symbolType x = none)
    {register : GpRegister} (hRegister : context.assignedRegister x = some register)
    (hDest : instruction.dest = .symbol x) (hOp : instruction.op = .assign)
    (hCode : emitAssignCode context instruction = some code) :
    ∃ final, executeCode context.globalAddress state code = some final ∧
      (LoadedNarrow context type x instruction →
        symbolWord context final x = extendScalar 4 type.signed
          (Codegen.operandWord context state instruction.lhs)) ∧
      (¬ LoadedNarrow context type x instruction → symbolWord context final x =
          Codegen.operandWord context state instruction.lhs) := by
  have hRead : ∀ final : X86State, symbolWord context final x =
      final.registers register := by
    intro final
    simp only [symbolWord, hRegister, hUnknown, movedWord]
  have hPlain : ∀ {loadCode : List X86}, emitOperandLoadCode context instruction.lhs register =
        some loadCode →
      ∃ final, executeCode context.globalAddress state loadCode = some final ∧
        symbolWord context final x = Codegen.operandWord context state instruction.lhs := by
    intro loadCode hLoad
    obtain ⟨final, hFinal, hWord⟩ :=
      placedLoad_executes state (show operandRegister context
        (.symbol x) = some register from hRegister) hLoad
    exact ⟨final, hFinal, by rw [hRead, hWord, placedWord_eq hOwn hUnknown]⟩
  have hType : operandType context (.symbol x) = context.declaredType x := by
    simp [operandType, hUnknown]
  simp only [emitAssignCode, hDest, hLocal.notAliased, ne_eq, not_true_eq_false, false_and,
    if_false, hRegister, hType] at hCode
  by_cases hNarrow : LoadedNarrow context type x instruction
  · obtain ⟨hFour, -, hDeclared, -, name, hTemp⟩ := hNarrow
    simp only [hTemp, hDeclared, emitPromotedLoad, hFour, if_true] at hCode
    obtain ⟨offset, hOffset, rfl⟩ := map_eq_some_iff.mp hCode
    refine ⟨_, emitTypedLoad_executes register (slot offset) type, ?_, ?_⟩
    · intro _
      rw [hRead, registers_set, typedWord, hFour, hTemp]
      simp only [Codegen.operandWord, homeWord, hOffset]
      -- the load of four bytes finds the low ones of the temp
      rw [← hFour]
      apply extendScalar_congr
      rw [hFour, placeWord, placeWord, toNat_ofNat, toNat_ofNat]
      have hLow := readLE_mod state.memory
        (state.address context.globalAddress (slot offset)) (show 4 ≤ 8 by decide)
      omega
    · exact fun hNot => absurd ⟨hFour, by simp [hRegister], hDeclared, hOp, name, hTemp⟩ hNot
  · obtain ⟨final, hFinal, hWord⟩ := hPlain (by
      unfold emitPromotedLoad at hCode
      split at hCode
      · rename_i name found hTemp hFound
        split at hCode
        · rename_i hFour
          exfalso
          rcases hLocal.declared with hDeclared | hDeclared
          · rw [hDeclared] at hFound
            cases hFound
            exact hNarrow ⟨hFour, by simp [hRegister], hDeclared, hOp, name, hTemp⟩
          · rw [hDeclared] at hFound
            cases hFound
        · exact hCode
      · exact hCode)
    exact ⟨final, hFinal, fun h => absurd h hNarrow, fun _ => hWord⟩

theorem extendScalar_eq_wrap (type : IntType) (w : Word) :
    extendScalar type.bytes type.signed w = wordOf (type.wrap w.toInt) := by
  have hNumbers : (w.toNat : Int) = w.toInt % 2 ^ 64 := by
    rw [toInt_eq_toNat_cond]
    split <;> omega
  apply eq_of_toNat_eq
  rw [toNat_wordOf, wrap_eq]
  by_cases hEight : type.bytes = 8
  · rw [hEight, extendScalar_eight]
    unfold signedAt
    split <;> omega
  · have hBytes : type.bytes = 1 ∨ type.bytes = 2 ∨ type.bytes = 4 := by
      have := type.bytes_cases
      omega
    cases hSigned : type.signed with
    | false =>
      rw [toNat_extendScalar_unsigned hBytes, if_neg Bool.false_ne_true]
      rcases hBytes with h | h | h <;> rw [h] <;> omega
    | true =>
      rw [toNat_extendScalar_signed hBytes, if_pos rfl]
      unfold signedAt
      rcases hBytes with h | h | h <;> rw [h] <;> omega

theorem word_eq_wrap_iff (hNarrow : type.bytes ≠ 8) (w : Word) :
    w = wordOf (type.wrap w.toInt) ↔ type.InRange w.toInt := by
  have hLow := w.le_toInt
  have hHigh := w.toInt_lt
  have hIff : wordOf w.toInt = wordOf (type.wrap w.toInt) ↔ type.Keeps w.toInt :=
    wordOf_wrap_iff (Or.inr (by omega)) (Or.inr ⟨by omega, fun _ => by omega⟩)
  rw [wordOf_toInt] at hIff
  rw [hIff]
  exact ⟨fun h => h.resolve_left hNarrow, Or.inr⟩

/-- **When a local reads as the wrapped value** behind an assignment. -/
theorem assign_reads_iff (hOwn : OwnRegisters context)
    (hNarrow : type.bytes ≠ 8) (hLocal : LocalOf context type x)
    (hKnown : context.symbolType x = none ∨
      context.symbolType x = some type ∧ context.assignedRegister x = none)
    (hDest : instruction.dest = .symbol x) (hFits : Fits64 instruction.rhs)
    (hCode : emitIntegerInstruction context instruction = some code)
    (hWord : instructionWord context state instruction = some w) :
    ∃ final, executeCode context.globalAddress state code = some final ∧
      (Codegen.operandWord context final (.symbol x) =
        wordOf (type.wrap w.toInt) ↔ Wraps context type x instruction w.toInt) := by
  have hStored : (∃ final, executeCode context.globalAddress state code = some final ∧
      symbolWord context final x = storedWord context (.symbol x) w) →
      ¬ LoadedNarrow context type x instruction →
      ∃ final, executeCode context.globalAddress state code = some final ∧
        (Codegen.operandWord context final (.symbol x) =
          wordOf (type.wrap w.toInt) ↔ Wraps context type x instruction w.toInt) := by
    rintro ⟨final, hFinal, hHome⟩ hWhole
    refine ⟨final, hFinal, ?_⟩
    rw [hLocal.operandWord, hHome]
    rcases hKnown with hUnknown | ⟨hType, hSlot⟩
    · have hWord : storedWord context (.symbol x) w = w := by
        cases hRegister : context.assignedRegister x <;>
          simp only [storedWord, hRegister, hUnknown, movedWord]
      rw [hWord, word_eq_wrap_iff hNarrow]
      simp only [Wraps, hUnknown]
      exact ⟨Or.inl, fun h => h.resolve_right hWhole⟩
    · have hWord : storedWord context (.symbol x) w = extendScalar type.bytes type.signed w := by
        simp only [storedWord, hSlot, hType]
      rw [hWord, extendScalar_eq_wrap]
      simp only [Wraps, hType, hSlot]
      trivial
  have hEither : context.symbolType x = none ∨ context.assignedRegister x = none :=
    hKnown.imp id And.right
  by_cases hOp : instruction.op = .assign
  · have hAssign : emitAssignCode context instruction = some code := by
      unfold emitIntegerInstruction at hCode
      rw [hOp] at hCode
      exact hCode
    have hValue : Codegen.operandWord context state instruction.lhs = w := by
      unfold instructionWord at hWord
      rw [hOp] at hWord
      exact some.inj hWord
    cases hRegister : context.assignedRegister x with
    | none =>
      refine hStored ?_ (fun h => by simp [LoadedNarrow, hRegister] at h)
      rw [← hValue]
      exact assign_slot hLocal hRegister hDest hAssign
    | some register =>
      have hUnknown : context.symbolType x = none :=
        hEither.resolve_right (by rw [hRegister]; exact some_ne_none _)
      obtain ⟨final, hFinal, hLoaded, hWhole⟩ :=
        assign_register hOwn hLocal hUnknown hRegister hDest hOp hAssign
      by_cases hLoad : LoadedNarrow context type x instruction
      · refine ⟨final, hFinal, iff_of_true ?_ ?_⟩
        · rw [hLocal.operandWord, hLoaded hLoad, hValue, ← extendScalar_eq_wrap, hLoad.1]
        · simp only [Wraps, hUnknown]
          exact Or.inr hLoad
      · refine hStored ⟨final, hFinal, ?_⟩ hLoad
        rw [hWhole hLoad, hValue]
        simp only [storedWord, hRegister, hUnknown, movedWord]
  · exact hStored (operator_stores hOwn hEither hDest hFits hOp hCode hWord) fun h => hOp h.2.2.2.1

end Reading

-- ---
-- Runs
-- ---

/-- A step of a function, from the side of one local: an instruction assigns it a word, or code
runs that leaves it alone. -/
inductive LocalStep (context : IntegerContext) (x : String) :
    X86State → Option (IRInstruction × Word) → X86State → Prop
  | assigns {state final : X86State} {instruction : IRInstruction} {code : List X86} {w : Word}
      (hDest : instruction.dest = .symbol x) (hFits : Fits64 instruction.rhs)
      (hCode : emitIntegerInstruction context instruction = some code)
      (hWord : instructionWord context state instruction = some w)
      (hFinal : executeCode context.globalAddress state code = some final) :
      LocalStep context x state (some (instruction, w)) final
  | elsewhere {state later : X86State}
      (hKept : operandWord context.toBinaryFunctionContext later (.symbol x) =
        operandWord context.toBinaryFunctionContext state (.symbol x)) :
      LocalStep context x state none later

inductive LocalRun (context : IntegerContext) (x : String) (start : X86State) :
    List (Option (IRInstruction × Word)) → X86State → Prop
  | start : LocalRun context x start [] start
  | step {steps : List (Option (IRInstruction × Word))} {state later : X86State}
      {last : Option (IRInstruction × Word)} (hRun : LocalRun context x start steps state)
      (hStep : LocalStep context x state last later) :
      LocalRun context x start (steps ++ [last]) later

def lastAssigned (steps : List (Option (IRInstruction × Word))) : Option (IRInstruction × Word) :=
  steps.foldl (fun last step => step.or last) none

theorem lastAssigned_append (steps : List (Option (IRInstruction × Word)))
    (step : Option (IRInstruction × Word)) :
    lastAssigned (steps ++ [step]) = step.or (lastAssigned steps) := by
  simp [lastAssigned, foldl_append]

/-- **Narrow locals wrap where their assignments do.** Along every run, whatever else runs in
between, a local of a narrow type reads as the value that was assigned last, reduced to the
range of the type, in whichever home it has, if every assignment to it wraps. -/
theorem narrow_local_wraps (context : IntegerContext) (type : IntType) (x : String)
    (start final : X86State) (steps : List (Option (IRInstruction × Word)))
    (hOwn : OwnRegisters context.toBinaryFunctionContext) (hNarrow : type.bytes ≠ 8)
    (hLocal : LocalOf context type x) (hRun : LocalRun context x start steps final)
    (hWraps : ∀ instruction w, some (instruction, w) ∈ steps →
      Wraps context type x instruction w.toInt) :
    ∀ instruction w, lastAssigned steps = some (instruction, w) →
      operandWord context.toBinaryFunctionContext final (.symbol x) =
        wordOf (type.wrap w.toInt) := by
  induction hRun with
  | start =>
    intro instruction w hLast
    cases hLast
  | step hRun hStep ih =>
    intro instruction w hLast
    rw [lastAssigned_append] at hLast
    cases hStep with
    | assigns hDest hFits hCode hWord hFinal =>
      cases hLast
      have hThis := hWraps _ _ (mem_append_right _ (mem_singleton_self _))
      have hKnown : context.symbolType x = none ∨
          context.symbolType x = some type ∧ context.assignedRegister x = none := by
        unfold Wraps at hThis
        split at hThis
        · exact Or.inl ‹_›
        · rename_i known hType
          exact Or.inr ⟨by rw [hType, hThis.1], hThis.2⟩
      obtain ⟨reached, hReached, hIff⟩ :=
        assign_reads_iff hOwn hNarrow hLocal hKnown hDest hFits hCode hWord
      obtain rfl := some.inj (hReached.symm.trans hFinal)
      exact hIff.mpr hThis
    | elsewhere hKept =>
      rw [hKept]
      exact ih (fun i v hMem => hWraps i v (mem_append_left _ hMem)) instruction w hLast

/-! ### A sum that leaves `int32` -/

/-- The local `x`, promoted. -/
def promotedContext : IntegerContext :=
  { twoLocalsContext .int32 with
    assignedRegister := fun name => if name = "x" then some .rbx else none
    assigned_nonvolatile := by
      intro name register h
      split at h
      · cases h
        rfl
      · cases h }

/-- A frame whose temp holds `2 ^ 31`. -/
def overflowState : X86State where
  registers register := if register = .rbp then 4096 else 0
  memory := writeLE (fun _ => 0) 4088 8 (2 ^ 31)
  flags := none

/-- `x = t`. -/
def assignTemp : IRInstruction := { op := .assign, dest := .symbol "x", lhs := .temp "t" }

theorem narrow_local_wraps_promoted :
    ∃ final, executeCode promotedContext.globalAddress overflowState
        [.load 4 .rbx (slot 8), .movsx 4 .rbx .rbx] = some final ∧
      operandWord promotedContext.toBinaryFunctionContext final (.symbol "x") =
        wordOf (-2 ^ 31) := by
  have hOwn : OwnRegisters promotedContext.toBinaryFunctionContext := by
    intro name other register hName hOther
    dsimp only [promotedContext] at hName hOther
    split at hName
    · split at hOther
      · exact (‹name = "x"›).trans (‹other = "x"›).symm
      · cases hOther
    · cases hName
  have hRun : LocalRun promotedContext "x" overflowState
      ([] ++ [some (assignTemp, BitVec.ofNat 64 (2 ^ 31))]) _ :=
    LocalRun.start.step (.assigns rfl trivial rfl (by decide) rfl)
  have hWraps : Wraps promotedContext .int32 "x" assignTemp (2 ^ 31) :=
    Or.inr ⟨rfl, rfl, rfl, rfl, "t", rfl⟩
  have hReads := narrow_local_wraps promotedContext .int32 "x" _ _ _ hOwn (by decide)
    ⟨Or.inl rfl, Or.inl rfl, rfl⟩ hRun (by
      intro instruction w hMem
      cases some.inj (mem_singleton.mp hMem)
      exact hWraps) assignTemp _ rfl
  exact ⟨_, rfl, hReads⟩

/-- **The same assignment to a slot does not wrap.** -/
theorem slot_keeps_overflow : emitAssignCode (twoLocalsContext .int32) assignTemp =
        some [.load 8 .rax (slot 8), .store 8 (slot 16) .rax] ∧
      ∃ final, executeCode (twoLocalsContext .int32).globalAddress overflowState
          [.load 8 .rax (slot 8), .store 8 (slot 16) .rax] = some final ∧
        operandWord (twoLocalsContext .int32).toBinaryFunctionContext final (.symbol "x") =
          wordOf (2 ^ 31) ∧
        IntType.int32.wrap (2 ^ 31) = -2 ^ 31 := by
  refine ⟨rfl, _, rfl, ?_, by decide⟩
  decide

end Mettle.Codegen
