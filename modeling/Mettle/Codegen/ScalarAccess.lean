import Mathlib.Algebra.Divisibility.Basic
import Mettle.Codegen.X86

/-!
# Mettle — scalars in memory

How the binary back end stores an integer through a pointer and loads it again. A load
carries the size of the value and not whether it is signed: one- and two-byte values are
zero-extended and four-byte values sign-extended, unless the symbol table knows better
about the destination. It knows global symbols only, so what it says about the name of a
local it says about a global the local hides.
-/

namespace Mettle.Codegen

open Mettle.IR Mettle.Lib Option BitVec

-- ---
-- Integer types
-- ---

/-- The integer types. -/
inductive IntType
  | int8 | int16 | int32 | int64 | uint8 | uint16 | uint32 | uint64
  deriving DecidableEq

/-- `code_generator_binary_resolved_type_scalar_size`. -/
def IntType.bytes : IntType → Nat
  | .int8 | .uint8 => 1
  | .int16 | .uint16 => 2
  | .int32 | .uint32 => 4
  | .int64 | .uint64 => 8

/-- `code_generator_binary_resolved_type_is_signed_integer`. -/
def IntType.signed : IntType → Bool
  | .int8 | .int16 | .int32 | .int64 => true
  | _ => false

def IntType.InRange (type : IntType) (v : Int) : Prop :=
  if type.signed then -2 ^ (8 * type.bytes - 1) ≤ v ∧ v < 2 ^ (8 * type.bytes - 1)
  else 0 ≤ v ∧ v < 2 ^ (8 * type.bytes)

instance (type : IntType) (v : Int) : Decidable (type.InRange v) :=
  inferInstanceAs (Decidable
    (if type.signed then -2 ^ (8 * type.bytes - 1) ≤ v ∧ v < 2 ^ (8 * type.bytes - 1)
    else 0 ≤ v ∧ v < 2 ^ (8 * type.bytes)))

def wordOf (v : Int) : Word := BitVec.ofInt 64 v

-- ---
-- Where things are
-- ---

/-- What the back end knows while it emits a function. -/
structure BinaryFunctionContext where
  tempOffset : String → Option Nat
  -- the slot of a parameter or local
  symbolOffset : String → Option Nat
  -- `code_generator_binary_symbol_assigned_register`
  assignedRegister : String → Option GpRegister
  -- the name a name stands for, itself if it is no alias
  aliasOf : String → String
  -- `symbol_table_lookup`: the type of the global of that name
  symbolType : String → Option IntType
  -- `binary_global_const_table_get`
  constValue : String → Option Word
  globalAddress : String → Word
  assigned_nonvolatile : ∀ name register, assignedRegister name = some register →
    register.isWin64Nonvolatile = true

variable (context : BinaryFunctionContext)

def slot (offset : Nat) : Place := .at .rbp (-offset)

-- ---
-- Operands and destinations
-- ---

/-- `code_generator_binary_emit_reg_reg_move`. -/
def emitRegRegMove (destination source : GpRegister) (type : Option IntType) : List X86 :=
  if destination = source then []
  else
    match type with
    | some type =>
      if type.bytes = 4 then
        if type.signed then [.movsx 4 destination source] else [.mov32 destination source]
      else [.mov destination source]
    | none => [.mov destination source]

/-- A load of the size of the type, sign-extended if the type is signed:
`code_generator_binary_emit_symbol_stack_load` and `_global_symbol_load`. -/
def emitTypedLoad (target : GpRegister) (place : Place) (type : IntType) : List X86 :=
  .load type.bytes target place ::
    if type.signed && type.bytes != 8 then [.movsx type.bytes target target] else []

/-- `code_generator_binary_emit_symbol_stack_load`: a whole word if the type is not known. -/
def emitSymbolStackLoad (target : GpRegister) (offset : Nat) : Option IntType → List X86
  | some type => emitTypedLoad target (slot offset) type
  | none => [.load 8 target (slot offset)]

/-- A symbol from its register, slot or address. -/
def emitSymbolLoad (name : String) (target : GpRegister) : Option (List X86) :=
  match context.assignedRegister name with
  | some register => some (emitRegRegMove target register (context.symbolType name))
  | none =>
    match context.symbolOffset name with
    | some offset => some (emitSymbolStackLoad target offset (context.symbolType name))
    | none => (context.symbolType name).map (emitTypedLoad target (.global name))

/-- `code_generator_binary_emit_operand_load` for integer operands. -/
def emitOperandLoadCode (operand : IROperand) (target : GpRegister) : Option (List X86) :=
  match operand with
  | .none => some [.movImm target 0]
  | .int intValue => some [.movImm target (BitVec.ofInt 64 intValue)]
  | .temp name => (context.tempOffset name).map fun offset => [.load 8 target (slot offset)]
  | .symbol name =>
    let name := context.aliasOf name
    match context.assignedRegister name, context.symbolOffset name, context.constValue name with
    | none, none, some value =>
      if (context.symbolType name).isSome then some [.movImm target value] else none
    | _, _, _ => emitSymbolLoad context name target
  | _ => none

/-- `code_generator_binary_emit_symbol_stack_store`. -/
def emitSymbolStackStore (offset : Nat) (source : GpRegister) : Option IntType → List X86
  | some type => [.store type.bytes (slot offset) source]
  | none => [.store 8 (slot offset) source]

/-- `code_generator_binary_emit_destination_store` for integer destinations. -/
def emitDestinationStoreCode (destination : IROperand) (source : GpRegister) : Option (List X86) :=
  match destination with
  | .none => some []
  | .temp name => (context.tempOffset name).map fun offset => [.store 8 (slot offset) source]
  | .symbol name =>
    match context.assignedRegister name with
    | some register => some (emitRegRegMove register source (context.symbolType name))
    | none =>
      match context.symbolOffset name with
      | some offset => some (emitSymbolStackStore offset source (context.symbolType name))
      | none =>
        (context.symbolType name).map fun type => [.store type.bytes (.global name) source]
  | _ => none

-- ---
-- Loads and stores
-- ---

/-- `code_generator_binary_get_access_size`. -/
def accessSize : IROperand → Option Nat
  | .int size => if 0 < size then some size.toNat else none
  | _ => none

/-- `code_generator_binary_emit_load_from_address`. -/
def emitLoadFromAddress (address : GpRegister) (size : Nat) (target : GpRegister) :
    Option (List X86) :=
  if size = 1 ∨ size = 2 ∨ size = 4 ∨ size = 8 then some [.load size target (.at address 0)]
  else none

/-- `code_generator_binary_emit_store_to_address`, for scalars. -/
def emitStoreToAddress (address : GpRegister) (size : Nat) (source : GpRegister) :
    Option (List X86) :=
  if size = 1 ∨ size = 2 ∨ size = 4 ∨ size = 8 then some [.store size (.at address 0) source]
  else none

/-- `code_generator_binary_load_needs_sign_extend`. -/
def loadNeedsSignExtend (destination : IROperand) (loadSize : Nat) : Bool :=
  loadSize == 4 &&
    match destination with
    | .symbol name =>
      match context.symbolType name with
      | some type => if type.bytes = 4 then type.signed else true
      | none => true
    | _ => true

def operandRegister : IROperand → Option GpRegister
  | .symbol name => context.assignedRegister name
  | _ => none

def emitOperandIn (operand : IROperand) (scratch : GpRegister) : Option (GpRegister × List X86) :=
  match operandRegister context operand with
  | some register => some (register, [])
  | none => (emitOperandLoadCode context operand scratch).map fun code => (scratch, code)

/-- `movsxd` behind a four-byte load that needs it. -/
def emitSignExtend (destination : IROperand) (size : Nat) (register : GpRegister) : List X86 :=
  if loadNeedsSignExtend context destination size then [.movsx 4 register register] else []

def emitLoadedStore (destination : IROperand) : Option (List X86) :=
  if (operandRegister context destination).isSome then some []
  else emitDestinationStoreCode context destination .rax

/-- `code_generator_binary_emit_load`. -/
def emitLoad (instruction : IRInstruction) : Option (List X86) := do
  let size ← accessSize instruction.rhs
  let (address, addressCode) ← emitOperandIn context instruction.lhs .rax
  let value := (operandRegister context instruction.dest).getD .rax
  let loadCode ← emitLoadFromAddress address size value
  let storeCode ← emitLoadedStore context instruction.dest
  return addressCode ++ loadCode ++ emitSignExtend context instruction.dest size value ++ storeCode

/-- `code_generator_binary_emit_store`. -/
def emitStore (instruction : IRInstruction) : Option (List X86) := do
  let size ← accessSize instruction.rhs
  let (value, valueCode) ← emitOperandIn context instruction.lhs .rcx
  let (address, addressCode) ← emitOperandIn context instruction.dest .rax
  let storeCode ← emitStoreToAddress address size value
  return valueCode ++ addressCode ++ storeCode

/-- `code_generator_binary_emit_address_add_to_rax`. -/
def emitAddressAddToRax (lhs rhs : IROperand) : Option (List X86) :=
  match immediate32 rhs, immediate32 lhs with
  | some immediate, _ =>
    (emitOperandLoadCode context lhs .rax).map (· ++ [.aluImm .add .rax immediate])
  | none, some immediate =>
    (emitOperandLoadCode context rhs .rax).map (· ++ [.aluImm .add .rax immediate])
  | none, none => do
    let rhsCode ← emitOperandLoadCode context rhs .r10
    let lhsCode ← emitOperandLoadCode context lhs .rax
    return rhsCode ++ lhsCode ++ [.leaScaled .rax .rax .r10 1]

/-- `code_generator_binary_emit_scaled_address_to_rax`. -/
def emitScaledAddressToRax (base index : IROperand) (scale : Nat) : Option (List X86) := do
  let indexCode ← emitOperandLoadCode context index .r10
  let baseCode ← emitOperandLoadCode context base .rax
  return indexCode ++ baseCode ++ [.leaScaled .rax .rax .r10 scale]

/-- The end of a fused load: the address is in `rax`, and the value takes its place. -/
def emitFusedLoad (addressCode : List X86) (load : IRInstruction) : Option (List X86) := do
  let size ← accessSize load.rhs
  let loadCode ← emitLoadFromAddress .rax size .rax
  let storeCode ← emitDestinationStoreCode context load.dest .rax
  return addressCode ++ loadCode ++ emitSignExtend context load.dest size .rax ++ storeCode

-- ---
-- What operands hold
-- ---

section Words

variable (state : X86State)

def placeWord (place : Place) (bytes : Nat) : Word :=
  BitVec.ofNat 64 (readLE state.memory (state.address context.globalAddress place) bytes)

def typedWord (place : Place) (type : IntType) : Word :=
  extendScalar type.bytes type.signed (placeWord context state place type.bytes)

def movedWord (type : Option IntType) (w : Word) : Word :=
  match type with
  | some type => if type.bytes = 4 then extendScalar 4 type.signed w else w
  | none => w

def symbolWord (name : String) : Word :=
  match context.assignedRegister name with
  | some register => movedWord (context.symbolType name) (state.registers register)
  | none =>
    match context.symbolOffset name, context.symbolType name with
    | some offset, some type => typedWord context state (slot offset) type
    | some offset, none => placeWord context state (slot offset) 8
    | none, some type => typedWord context state (.global name) type
    | none, none => 0

def homeWord : IROperand → Word
  | .temp name =>
    match context.tempOffset name with
    | some offset => placeWord context state (slot offset) 8
    | none => 0
  | .symbol name => symbolWord context state name
  | _ => 0

def operandWord : IROperand → Word
  | .int intValue => BitVec.ofInt 64 intValue
  | .symbol name =>
    let name := context.aliasOf name
    match context.assignedRegister name, context.symbolOffset name, context.constValue name with
    | none, none, some value => value
    | _, _, _ => symbolWord context state name
  | operand => homeWord context state operand

def directWord (operand : IROperand) : Word :=
  match operandRegister context operand with
  | some register => state.registers register
  | none => operandWord context state operand

end Words

-- ---
-- Extensions, as numbers
-- ---

variable {bytes : Nat} {w : Word}

section Extensions

theorem toNat_extendScalar_unsigned (h : bytes = 1 ∨ bytes = 2 ∨ bytes = 4) (w : Word)
    : (extendScalar bytes false w).toNat = w.toNat % 2 ^ (8 * bytes) := by
  rcases h with rfl | rfl | rfl <;> simp [extendScalar] <;> omega

theorem toNat_extendScalar_signed (h : bytes = 1 ∨ bytes = 2 ∨ bytes = 4) (w : Word)
    : (extendScalar bytes true w).toNat =
      ((w.toNat % 2 ^ (8 * bytes) + 2 ^ (8 * bytes - 1)) % 2 ^ (8 * bytes) +
        (2 ^ 64 - 2 ^ (8 * bytes - 1))) % 2 ^ 64 := by
  rcases h with rfl | rfl | rfl <;>
    simp only [extendScalar, if_true, toNat_signExtend, toNat_setWidth,
      msb_eq_decide, decide_eq_true_eq] <;>
    split <;> omega

@[simp] theorem extendScalar_eight (signed : Bool) (w : Word) : extendScalar 8 signed w = w := rfl

theorem extendScalar_congr {type : IntType} {w' : Word}
    (h : w.toNat % 2 ^ (8 * type.bytes) = w'.toNat % 2 ^ (8 * type.bytes)) :
    extendScalar type.bytes type.signed w = extendScalar type.bytes type.signed w' := by
  apply eq_of_toNat_eq
  by_cases hEight : type.bytes = 8
  · rw [hEight] at h ⊢
    simp only [extendScalar_eight]
    omega
  · have hBytes : type.bytes = 1 ∨ type.bytes = 2 ∨ type.bytes = 4 := by
      cases type <;> simp_all [IntType.bytes]
    cases type.signed with
    | false => rw [toNat_extendScalar_unsigned hBytes, toNat_extendScalar_unsigned hBytes, h]
    | true => rw [toNat_extendScalar_signed hBytes, toNat_extendScalar_signed hBytes, h]

theorem extendScalar_placeWord (context : BinaryFunctionContext) (state : X86State) (place : Place)
    (h : bytes = 1 ∨ bytes = 2 ∨ bytes = 4 ∨ bytes = 8) :
    extendScalar bytes false (placeWord context state place bytes) =
      placeWord context state place bytes := by
  have hLt := readLE_lt state.memory (state.address context.globalAddress place) bytes
  obtain h | rfl : (bytes = 1 ∨ bytes = 2 ∨ bytes = 4) ∨ bytes = 8 := by omega
  · apply eq_of_toNat_eq
    rw [toNat_extendScalar_unsigned h, placeWord, toNat_ofNat]
    rcases h with rfl | rfl | rfl <;> omega
  · rfl

theorem IntType.bytes_cases (type : IntType) :
    type.bytes = 1 ∨ type.bytes = 2 ∨ type.bytes = 4 ∨ type.bytes = 8 := by
  cases type <;> decide

end Extensions

-- ---
-- The code does what it is for
-- ---

variable {name : String} {context : BinaryFunctionContext} {destination : IROperand}
  {code : List X86} {state state' : X86State}

section Execution

variable {operand : IROperand} {target : GpRegister}

def GpRegister.isScratch (register : GpRegister) : Bool :=
  !register.isWin64Nonvolatile && register != .rbp

theorem assigned_ne_scratch {register : GpRegister}
    (h : context.assignedRegister name = some register) (hTarget : target.isScratch = true) :
    target ≠ register := by
  rintro rfl
  have := context.assigned_nonvolatile name target h
  simp [GpRegister.isScratch, this] at hTarget

theorem emitRegRegMove_executes {destination source : GpRegister} (hNe : destination ≠ source)
    (type : Option IntType) :
    executeCode context.globalAddress state (emitRegRegMove destination source type) =
      some (state.set destination (movedWord type (state.registers source))) := by
  unfold emitRegRegMove
  rw [if_neg hNe]
  cases type with
  | none => rfl
  | some type =>
    cases type <;> rfl

theorem emitTypedLoad_executes (target : GpRegister) (place : Place) (type : IntType) :
    executeCode context.globalAddress state (emitTypedLoad target place type) =
      some (state.set target (typedWord context state place type)) := by
  have hUnsigned := extendScalar_placeWord context state place type.bytes_cases
  show executeCode _ (state.set target (placeWord context state place type.bytes)) _ = _
  by_cases hSigned : (type.signed && type.bytes != 8) = true
  · rw [if_pos hSigned, executeCode_cons, X86.execute, registers_set]
    rw [Bool.and_eq_true] at hSigned
    simp [typedWord, hSigned.1, X86State.set]
  · rw [if_neg hSigned, executeCode_nil, typedWord]
    congr 2
    cases hType : type.signed with
    | false => exact hUnsigned.symm
    | true =>
      have hEight : type.bytes = 8 := by simpa [hType] using hSigned
      rw [hEight]
      rfl

theorem emitSymbolLoad_apart (hApart : context.assignedRegister name ≠ some target)
    (hCode : emitSymbolLoad context name target = some code) :
    executeCode context.globalAddress state code =
      some (state.set target (symbolWord context state name)) := by
  unfold emitSymbolLoad at hCode
  unfold symbolWord
  cases hRegister : context.assignedRegister name with
  | some register =>
    rw [hRegister] at hCode hApart
    cases hCode
    exact emitRegRegMove_executes (fun hSame => hApart (congrArg some hSame.symm)) _
  | none =>
    rw [hRegister] at hCode
    cases hOffset : context.symbolOffset name with
    | some offset =>
      rw [hOffset] at hCode
      cases hCode
      cases hType : context.symbolType name with
      | none => rfl
      | some type => exact emitTypedLoad_executes target (slot offset) type
    | none =>
      rw [hOffset] at hCode
      obtain ⟨type, hType, rfl⟩ := map_eq_some_iff.mp hCode
      rw [hType]
      exact emitTypedLoad_executes target (.global name) type

theorem emitOperandLoad_apart (state : X86State) (hApart : ∀ name, operand = .symbol name →
      context.assignedRegister (context.aliasOf name) ≠ some target)
    (hCode : emitOperandLoadCode context operand target = some code) :
    executeCode context.globalAddress state code =
      some (state.set target (operandWord context state operand)) := by
  cases operand with
  | none =>
    cases hCode
    rfl
  | int intValue =>
    cases hCode
    rfl
  | temp name =>
    obtain ⟨offset, hOffset, rfl⟩ := map_eq_some_iff.mp hCode
    simp only [operandWord, homeWord, hOffset]
    rfl
  | symbol name =>
    have hApart := hApart name rfl
    simp only [emitOperandLoadCode] at hCode
    simp only [operandWord]
    generalize context.aliasOf name = name at hCode hApart ⊢
    split at hCode
    · split at hCode
      · cases hCode
        rfl
      · cases hCode
    · exact emitSymbolLoad_apart hApart hCode
  | _ => cases hCode

/-- **The code for an operand leaves its word in the register**, and does nothing else. -/
theorem emitOperandLoad_executes (state : X86State) (hTarget : target.isScratch = true)
    (hCode : emitOperandLoadCode context operand target = some code) :
    executeCode context.globalAddress state code =
      some (state.set target (operandWord context state operand)) :=
  emitOperandLoad_apart state (fun _ _ hLives => assigned_ne_scratch hLives hTarget rfl) hCode

theorem emitOperandIn_executes (state : X86State) {register : GpRegister}
    (hTarget : target.isScratch = true)
    (hCode : emitOperandIn context operand target = some (register, code)) :
    ∃ state', executeCode context.globalAddress state code = some state' ∧
      state'.registers register = directWord context state operand ∧
      state'.memory = state.memory ∧ state'.registers .rbp = state.registers .rbp ∧
      ∀ other, other ≠ target → state'.registers other = state.registers other := by
  unfold emitOperandIn at hCode
  unfold directWord
  cases hRegister : operandRegister context operand with
  | some assigned =>
    rw [hRegister] at hCode
    cases hCode
    exact ⟨state, rfl, rfl, rfl, rfl, fun _ _ => rfl⟩
  | none =>
    rw [hRegister] at hCode
    obtain ⟨code', hCode', hPair⟩ := map_eq_some_iff.mp hCode
    cases hPair
    have hRbp : GpRegister.rbp ≠ target := by
      rintro rfl
      simp [GpRegister.isScratch] at hTarget
    refine ⟨_, emitOperandLoad_executes state hTarget hCode', registers_set _ _, rfl, ?_, ?_⟩
    · exact registers_set_of_ne hRbp _
    · intro other hOther
      exact registers_set_of_ne hOther _

def storedWord (context : BinaryFunctionContext) (destination : IROperand) (w : Word) : Word :=
  match destination with
  | .symbol name =>
    match context.assignedRegister name, context.symbolType name with
    | some _, type => movedWord type w
    | none, some type => extendScalar type.bytes type.signed w
    | none, none => w
  | _ => w

theorem movedWord_idem (type : Option IntType) (w : Word) :
    movedWord type (movedWord type w) = movedWord type w := by
  cases type with
  | none => rfl
  | some type =>
    by_cases hFour : type.bytes = 4
    · simp only [movedWord, hFour, if_true]
      exact extendScalar_idem 4 type.signed w
    · simp [movedWord, hFour]

theorem typedWord_store (state : X86State) (place : Place) (type : IntType) (w : Word)
    (hMemory : state'.memory = writeLE state.memory (state.address context.globalAddress place)
      type.bytes w.toNat)
    (hAddress : state'.address context.globalAddress place =
      state.address context.globalAddress place) :
    typedWord context state' place type = extendScalar type.bytes type.signed w := by
  have hBytes := type.bytes_cases
  have hRead : placeWord context state' place type.bytes =
      BitVec.ofNat 64 (w.toNat % 256 ^ type.bytes) := by
    rw [placeWord, hMemory, hAddress, readLE_writeLE _ _ (by omega)]
  rw [typedWord, hRead]
  apply extendScalar_congr
  rw [BitVec.toNat_ofNat]
  cases type <;> simp only [IntType.bytes] <;> omega

theorem placeWord_store (state : X86State) (place : Place) (w : Word)
    (hMemory : state'.memory = writeLE state.memory (state.address context.globalAddress place)
      8 w.toNat)
    (hAddress : state'.address context.globalAddress place =
      state.address context.globalAddress place) :
    placeWord context state' place 8 = w :=
  typedWord_store state place .uint64 w hMemory hAddress

/-- **A destination holds what was stored to it**, at the width of its type. -/
theorem emitDestinationStore_executes (state : X86State) {source : GpRegister}
    (hSource : source.isScratch = true) (hDestination : destination ≠ .none)
    (hCode : emitDestinationStoreCode context destination source = some code) :
    ∃ state', executeCode context.globalAddress state code = some state' ∧
      homeWord context state' destination =
        storedWord context destination (state.registers source) := by
  cases destination with
  | temp name =>
    obtain ⟨offset, hOffset, rfl⟩ := map_eq_some_iff.mp hCode
    refine ⟨_, rfl, ?_⟩
    simp only [homeWord, hOffset, storedWord]
    exact placeWord_store state (slot offset) _ rfl rfl
  | symbol name =>
    simp only [emitDestinationStoreCode] at hCode
    simp only [homeWord, symbolWord, storedWord]
    cases hRegister : context.assignedRegister name with
    | some register =>
      rw [hRegister] at hCode
      cases hCode
      have hNe := (assigned_ne_scratch hRegister hSource).symm
      refine ⟨_, emitRegRegMove_executes hNe _, ?_⟩
      dsimp only
      rw [registers_set, movedWord_idem]
    | none =>
      rw [hRegister] at hCode
      cases hOffset : context.symbolOffset name with
      | some offset =>
        rw [hOffset] at hCode
        cases hCode
        cases hType : context.symbolType name with
        | none => exact ⟨_, rfl, placeWord_store state (slot offset) _ rfl rfl⟩
        | some type => exact ⟨_, rfl, typedWord_store state (slot offset) type _ rfl rfl⟩
      | none =>
        rw [hOffset] at hCode
        obtain ⟨type, hType, rfl⟩ := map_eq_some_iff.mp hCode
        rw [hType]
        exact ⟨_, rfl, typedWord_store state (.global name) type _ rfl rfl⟩
  | none => exact absurd rfl hDestination
  | _ => cases hCode

end Execution

-- ---
-- Loads
-- ---

variable {size : Nat}

section Loads

def loadedWord (context : BinaryFunctionContext) (destination : IROperand) (size : Nat)
    (w : Word) : Word :=
  if loadNeedsSignExtend context destination size then extendScalar 4 true w else w

def bytesAt (state : X86State) (address : Word) (size : Nat) : Word :=
  BitVec.ofNat 64 (readLE state.memory address size)

theorem emitLoadFromAddress_executes (context : BinaryFunctionContext) (state : X86State)
    (destination : IROperand) {address value : GpRegister} {loadCode : List X86}
    (hLoad : emitLoadFromAddress address size value = some loadCode) :
    ∃ state', executeCode context.globalAddress state
        (loadCode ++ emitSignExtend context destination size value) = some state' ∧
      state'.registers value =
        loadedWord context destination size (bytesAt state (state.registers address) size) := by
  unfold emitLoadFromAddress at hLoad
  split at hLoad
  case isFalse => cases hLoad
  case isTrue =>
    cases hLoad
    have hAddress : state.address context.globalAddress (.at address 0) =
        state.registers address := by
      simp [X86State.address]
    rw [List.singleton_append, executeCode_cons, X86.execute, hAddress]
    unfold emitSignExtend loadedWord
    split
    · exact ⟨_, rfl, by simp [bytesAt]⟩
    · exact ⟨_, rfl, by simp [bytesAt]⟩

def LoadsTo (context : BinaryFunctionContext) (state : X86State) (address : Word) (size : Nat)
    (destination : IROperand) (code : List X86) : Prop :=
  ∃ loaded, executeCode context.globalAddress state code = some loaded ∧
    homeWord context loaded destination = storedWord context destination
        (loadedWord context destination size (bytesAt state address size))

theorem emitLoad_loads {source : IROperand} (hSize : 0 < size) (hDestination : destination ≠ .none)
    (hCode : emitLoad context
      { op := .load, dest := destination, lhs := source, rhs := .int size } = some code) :
    LoadsTo context state (directWord context state source) size destination code := by
  have hAccess : accessSize (.int size) = some size := by
    simp [accessSize, hSize]
  simp only [emitLoad, hAccess, bind_eq_bind, bind_some,
    bind_eq_some_iff, pure_def, some.injEq, Prod.exists] at hCode
  obtain ⟨address, addressCode, hAddress, loadCode, hLoad, storeCode, hStore, rfl⟩ := hCode
  obtain ⟨addressed, hAddressed, hWord, hMemory, -⟩ :=
    emitOperandIn_executes state (show GpRegister.rax.isScratch = true by decide) hAddress
  obtain ⟨loaded, hLoaded, hValue⟩ :=
    emitLoadFromAddress_executes context addressed destination hLoad
  rw [hWord, bytesAt, hMemory] at hValue
  unfold LoadsTo
  rw [List.append_assoc addressCode, List.append_assoc, executeCode_append, hAddressed,
    bind_some, executeCode_append, hLoaded, bind_some]
  cases hRegister : operandRegister context destination with
  | some register =>
    rw [hRegister] at hValue
    rw [emitLoadedStore, hRegister] at hStore
    cases hStore
    refine ⟨loaded, rfl, ?_⟩
    obtain ⟨name, rfl⟩ : ∃ name, destination = .symbol name := by
      cases destination <;> first | exact ⟨_, rfl⟩ | cases hRegister
    have hAssigned : context.assignedRegister name = some register := hRegister
    simp only [homeWord, symbolWord, storedWord, hAssigned]
    exact congrArg _ hValue
  | none =>
    rw [hRegister] at hValue
    rw [emitLoadedStore, hRegister] at hStore
    obtain ⟨final, hFinal, hHome⟩ :=
      emitDestinationStore_executes loaded
        (show GpRegister.rax.isScratch = true by decide) hDestination hStore
    refine ⟨final, hFinal, ?_⟩
    rw [hHome]
    exact congrArg _ hValue

theorem emitFusedLoad_loads {source : IROperand} {addressCode : List X86}
    {addressed : X86State} (hSize : 0 < size) (hDestination : destination ≠ .none)
    (hAddressed : executeCode context.globalAddress state addressCode = some addressed)
    (hMemory : addressed.memory = state.memory)
    (hCode : emitFusedLoad context addressCode
      { op := .load, dest := destination, lhs := source, rhs := .int size } = some code) :
    LoadsTo context state (addressed.registers .rax) size destination code := by
  have hAccess : accessSize (.int size) = some size := by
    simp [accessSize, hSize]
  simp only [emitFusedLoad, hAccess, bind_eq_bind, bind_some,
    bind_eq_some_iff, pure_def, some.injEq] at hCode
  obtain ⟨loadCode, hLoad, storeCode, hStore, rfl⟩ := hCode
  obtain ⟨loaded, hLoaded, hValue⟩ :=
    emitLoadFromAddress_executes context addressed destination hLoad
  obtain ⟨final, hFinal, hHome⟩ := emitDestinationStore_executes loaded
    (show GpRegister.rax.isScratch = true by decide) hDestination hStore
  refine ⟨final, ?_, ?_⟩
  · rw [List.append_assoc addressCode, List.append_assoc, executeCode_append, hAddressed,
      bind_some, executeCode_append, hLoaded, bind_some, hFinal]
  · rw [hHome, hValue, bytesAt, hMemory, ← bytesAt]

end Loads

-- ---
-- Scratch registers hold no operands
-- ---

structure SameOperands (state state' : X86State) : Prop where
  memory : state'.memory = state.memory
  registers : ∀ register, register.isScratch = false →
    state'.registers register = state.registers register

section SameOperands

theorem sameOperands_set {target : GpRegister} (hTarget : target.isScratch = true) (w : Word) :
    SameOperands state (state.set target w) := by
  refine ⟨rfl, ?_⟩
  intro register hRegister
  refine registers_set_of_ne ?_ w
  rintro rfl
  rw [hTarget] at hRegister
  cases hRegister

theorem assigned_not_scratch {register : GpRegister}
    (h : context.assignedRegister name = some register) : register.isScratch = false := by
  rw [GpRegister.isScratch, context.assigned_nonvolatile name register h]
  rfl

variable (h : SameOperands state state')
include h

theorem SameOperands.placeWord (offset bytes : Nat) :
    placeWord context state' (slot offset) bytes = placeWord context state (slot offset) bytes := by
  simp only [Codegen.placeWord, slot, X86State.address, h.memory, h.registers .rbp rfl]

theorem SameOperands.symbolWord (name : String) :
    symbolWord context state' name = symbolWord context state name := by
  unfold Codegen.symbolWord
  cases hRegister : context.assignedRegister name with
  | some register =>
    dsimp only
    rw [h.registers register (assigned_not_scratch hRegister)]
  | none =>
    dsimp only
    split
    · rw [typedWord, h.placeWord]
      rfl
    · exact h.placeWord _ _
    · simp only [typedWord, Codegen.placeWord, X86State.address, h.memory]
    · rfl

theorem SameOperands.operandWord (operand : IROperand) :
    operandWord context state' operand = operandWord context state operand := by
  cases operand with
  | temp name =>
    simp only [Codegen.operandWord, homeWord]
    split
    · exact h.placeWord _ _
    · rfl
  | symbol name =>
    simp only [Codegen.operandWord]
    split
    · rfl
    · exact h.symbolWord _
  | _ => rfl

theorem SameOperands.directWord (operand : IROperand) :
    directWord context state' operand = directWord context state operand := by
  unfold Codegen.directWord
  cases hRegister : operandRegister context operand with
  | some register =>
    have hAssigned : ∃ name, context.assignedRegister name = some register := by
      cases operand with
      | symbol name => exact ⟨name, hRegister⟩
      | _ => cases hRegister
    obtain ⟨name, hAssigned⟩ := hAssigned
    exact h.registers register (assigned_not_scratch hAssigned)
  | none => exact h.operandWord operand

end SameOperands

-- ---
-- Addresses and stores
-- ---

section Addresses

theorem immediate32_eq_some {operand : IROperand} {immediate : Int}
    (h : immediate32 operand = some immediate) : operand = .int immediate := by
  cases operand with
  | int intValue =>
    simp only [immediate32, ite_none_right_eq_some] at h
    rw [some.inj h.2]
  | _ => cases h

theorem loadPair_executes (state : X86State) {lhs rhs : IROperand} {lhsCode rhsCode : List X86}
    (hRhs : emitOperandLoadCode context rhs .r10 = some rhsCode)
    (hLhs : emitOperandLoadCode context lhs .rax = some lhsCode) :
    executeCode context.globalAddress state (rhsCode ++ lhsCode) =
      some ((state.set .r10 (operandWord context state rhs)).set .rax
        (operandWord context state lhs)) := by
  have hFirst := emitOperandLoad_executes state
    (show GpRegister.r10.isScratch = true by decide) hRhs
  have hSame : SameOperands state (state.set .r10 (operandWord context state rhs)) :=
    sameOperands_set (by decide) _
  have hSecond := emitOperandLoad_executes (state.set .r10 (operandWord context state rhs))
    (show GpRegister.rax.isScratch = true by decide) hLhs
  rw [hSame.operandWord] at hSecond
  rw [executeCode_append, hFirst, bind_some, hSecond]

theorem loadTwo_executes (state : X86State) {base index : IROperand} {baseCode indexCode : List X86}
    (scale : Nat) (hIndex : emitOperandLoadCode context index .r10 = some indexCode)
    (hBase : emitOperandLoadCode context base .rax = some baseCode) :
    ∃ addressed, executeCode context.globalAddress state
        (indexCode ++ baseCode ++ [.leaScaled .rax .rax .r10 scale]) = some addressed ∧
      addressed.memory = state.memory ∧
      addressed.registers .rax = operandWord context state base +
        operandWord context state index * BitVec.ofNat 64 scale := by
  rw [executeCode_append, loadPair_executes state hIndex hBase, bind_some]
  refine ⟨_, rfl, rfl, ?_⟩
  rw [registers_set, registers_set, registers_set_of_ne (by decide), registers_set]

theorem emitAddressAdd_executes (state : X86State) {lhs rhs : IROperand}
    (hCode : emitAddressAddToRax context lhs rhs = some code) :
    ∃ addressed, executeCode context.globalAddress state code = some addressed ∧
      addressed.memory = state.memory ∧
      addressed.registers .rax = operandWord context state lhs + operandWord context state rhs := by
  unfold emitAddressAddToRax at hCode
  split at hCode
  · rename_i immediate hImmediate
    obtain ⟨lhsCode, hLhs, rfl⟩ := map_eq_some_iff.mp hCode
    obtain rfl := immediate32_eq_some hImmediate
    have hFirst := emitOperandLoad_executes state
      (show GpRegister.rax.isScratch = true by decide) hLhs
    rw [executeCode_append, hFirst, bind_some]
    exact ⟨_, rfl, rfl, by simp [AluOp.apply, operandWord, X86State.set]⟩
  · rename_i immediate _ hImmediate
    obtain ⟨rhsCode, hRhs, rfl⟩ := map_eq_some_iff.mp hCode
    obtain rfl := immediate32_eq_some hImmediate
    have hFirst := emitOperandLoad_executes state
      (show GpRegister.rax.isScratch = true by decide) hRhs
    rw [executeCode_append, hFirst, bind_some]
    exact ⟨_, rfl, rfl, by simp [AluOp.apply, operandWord, X86State.set, BitVec.add_comm]⟩
  · simp only [bind_eq_bind, bind_eq_some_iff, pure_def, some.injEq] at hCode
    obtain ⟨rhsCode, hRhs, lhsCode, hLhs, rfl⟩ := hCode
    obtain ⟨addressed, hRun, hMemory, hRax⟩ := loadTwo_executes state 1 hRhs hLhs
    refine ⟨addressed, hRun, hMemory, ?_⟩
    rw [hRax]
    simp

theorem emitScaledAddress_executes (state : X86State) {base index : IROperand} {scale : Nat}
    (hCode : emitScaledAddressToRax context base index scale = some code) :
    ∃ addressed, executeCode context.globalAddress state code = some addressed ∧
      addressed.memory = state.memory ∧
      addressed.registers .rax = operandWord context state base +
        operandWord context state index * BitVec.ofNat 64 scale := by
  simp only [emitScaledAddressToRax, bind_eq_bind, bind_eq_some_iff, pure_def, some.injEq] at hCode
  obtain ⟨indexCode, hIndex, baseCode, hBase, rfl⟩ := hCode
  exact loadTwo_executes state scale hIndex hBase

theorem operandInTwo_executes (state : X86State) {first second : IROperand}
    {firstScratch secondScratch firstRegister secondRegister : GpRegister}
    {firstCode secondCode : List X86} (hNe : firstScratch ≠ secondScratch)
    (hFirstScratch : firstScratch.isScratch = true)
    (hSecondScratch : secondScratch.isScratch = true)
    (hFirst : emitOperandIn context first firstScratch = some (firstRegister, firstCode))
    (hSecond : emitOperandIn context second secondScratch = some (secondRegister, secondCode)) :
    ∃ final, executeCode context.globalAddress state (firstCode ++ secondCode) = some final ∧
      final.registers firstRegister = directWord context state first ∧
      final.registers secondRegister = directWord context state second ∧
      final.memory = state.memory := by
  obtain ⟨middle, hMiddle, hFirstWord, hFirstMemory, -, hFirstOther⟩ :=
    emitOperandIn_executes state hFirstScratch hFirst
  have hSame : SameOperands state middle := by
    refine ⟨hFirstMemory, ?_⟩
    intro register hRegister
    refine hFirstOther register ?_
    rintro rfl
    rw [hFirstScratch] at hRegister
    cases hRegister
  obtain ⟨final, hFinal, hSecondWord, hSecondMemory, -, hSecondOther⟩ :=
    emitOperandIn_executes middle hSecondScratch hSecond
  -- the second load leaves the first operand in its register
  have hDistinct : firstRegister ≠ secondScratch := by
    unfold emitOperandIn at hFirst
    cases hRegister : operandRegister context first with
    | some register =>
      rw [hRegister] at hFirst
      cases hFirst
      cases first with
      | symbol name => exact (assigned_ne_scratch hRegister hSecondScratch).symm
      | _ => cases hRegister
    | none =>
      rw [hRegister] at hFirst
      obtain ⟨_, -, hPair⟩ := map_eq_some_iff.mp hFirst
      cases hPair
      exact hNe
  refine ⟨final, ?_, ?_, ?_, hSecondMemory.trans hFirstMemory⟩
  · rw [executeCode_append, hMiddle, bind_some, hFinal]
  · rw [hSecondOther firstRegister hDistinct, hFirstWord]
  · rw [hSecondWord, hSame.directWord]

/-- **A store writes the low bytes of the value** at the address, and nothing else. -/
theorem emitStore_executes (state : X86State) {address value : IROperand} (hSize : 0 < size)
    (hCode : emitStore context
      { op := .store, dest := address, lhs := value, rhs := .int size } = some code) :
    ∃ stored, executeCode context.globalAddress state code = some stored ∧
      stored.memory = writeLE state.memory (directWord context state address) size
        (directWord context state value).toNat := by
  have hAccess : accessSize (.int size) = some size := by
    simp [accessSize, hSize]
  simp only [emitStore, hAccess, bind_eq_bind, bind_some,
    bind_eq_some_iff, pure_def, some.injEq, Prod.exists] at hCode
  obtain ⟨valueRegister, valueCode, hValue, addressRegister, addressCode, hAddress, storeCode,
    hStore, rfl⟩ := hCode
  obtain ⟨addressed, hAddressed, hValueWord, hAddressWord, hMemory⟩ :=
    operandInTwo_executes state (by decide) (by decide) (by decide) hValue hAddress
  unfold emitStoreToAddress at hStore
  split at hStore
  case isFalse => cases hStore
  case isTrue =>
    cases hStore
    rw [executeCode_append, hAddressed, bind_some]
    refine ⟨_, rfl, ?_⟩
    have hPlace : addressed.address context.globalAddress (.at addressRegister 0) =
        directWord context state address := by
      simp [X86State.address, hAddressWord]
    show writeLE addressed.memory _ size (addressed.registers valueRegister).toNat = _
    rw [hPlace, hValueWord, hMemory]

end Addresses

-- ---
-- Round trips
-- ---

/-- A load that knows the size only gives the value: one and two bytes are taken as
unsigned, and four bytes as signed. -/
def LoadsRight (type : IntType) (v : Int) : Prop :=
  (type.bytes < 4 → 0 ≤ v) ∧ (type.bytes = 4 → v < 2 ^ 31)

/-- The word of the value is a word of the type. -/
def IntType.Fits (type : IntType) (v : Int) : Prop :=
  type.bytes = 8 ∨ type.InRange v ∨ type.InRange (v - 2 ^ 64)

/-- The condition on the destination. -/
def ReadsBack (context : BinaryFunctionContext) (type : IntType) (v : Int) : IROperand → Prop
  | .symbol name =>
    match context.symbolType name with
    | none => LoadsRight type v
    | some known =>
      if (context.assignedRegister name).isSome ∧ known.bytes ≠ 4 then LoadsRight type v
      else known.Fits v ∧ (known.bytes ≤ type.bytes ∨ LoadsRight type v)
  | _ => LoadsRight type v

section RoundTrip

variable {type known : IntType} {v : Int}

def lowWord (type : IntType) (v : Int) : Word :=
  BitVec.ofNat 64 ((wordOf v).toNat % 256 ^ type.bytes)

theorem toNat_lowWord (type : IntType) (v : Int) :
    (lowWord type v).toNat = (v % 2 ^ (8 * type.bytes)).toNat := by
  rw [lowWord, wordOf, toNat_ofNat, toNat_ofInt]
  cases type <;> simp only [IntType.bytes] <;> omega

theorem toNat_wordOf (v : Int) : (wordOf v).toNat = (v % 2 ^ 64).toNat := by
  rw [wordOf, toNat_ofInt]
  rfl

theorem inRange_iff (type : IntType) (v : Int) : type.InRange v ↔
    (if type.signed then -2 ^ (8 * type.bytes - 1) ≤ v ∧ v < 2 ^ (8 * type.bytes - 1)
    else 0 ≤ v ∧ v < 2 ^ (8 * type.bytes)) := Iff.rfl

theorem cast_lowWord (type : IntType) (v : Int) :
    ((lowWord type v).toNat : Int) = v % 2 ^ (8 * type.bytes) := by
  rw [toNat_lowWord]
  exact Int.toNat_of_nonneg (Int.emod_nonneg _ (Int.pow_ne_zero (by decide)))

theorem inRange_word (hv : type.InRange v) : -2 ^ 63 ≤ v ∧ v < 2 ^ 64 := by
  rw [inRange_iff] at hv
  cases type <;> simp only [IntType.bytes, IntType.signed, if_true, Bool.false_eq_true,
    if_false] at hv <;> omega

/-- An extended word is the word of a value that fits and has its low bytes. -/
theorem extendScalar_eq_wordOf_iff (known : IntType) (w : Word) (hv : type.InRange v) :
    extendScalar known.bytes known.signed w = wordOf v ↔
      known.Fits v ∧ (w.toNat : Int) % 2 ^ (8 * known.bytes) = v % 2 ^ (8 * known.bytes) := by
  have hRange := inRange_word hv
  rw [← toNat_inj, toNat_wordOf]
  unfold IntType.Fits
  rw [inRange_iff, inRange_iff]
  cases known <;>
    simp (disch := decide) only [IntType.bytes, IntType.signed, if_true, Bool.false_eq_true,
      if_false, Nat.reduceEqDiff, false_or, true_or, true_and, extendScalar_eight,
      toNat_extendScalar_signed, toNat_extendScalar_unsigned] <;>
    omega

theorem extendScalar_four_emod (w : Word) {k : Nat} (h : k ≤ 4) :
    ((extendScalar 4 true w).toNat : Int) % 2 ^ (8 * k) = w.toNat % 2 ^ (8 * k) := by
  have hDvd : (2 : Int) ^ (8 * k) ∣ 2 ^ 32 := pow_dvd_pow 2 (by omega)
  have hFour : ((extendScalar 4 true w).toNat : Int) % 2 ^ 32 = w.toNat % 2 ^ 32 := by
    rw [toNat_extendScalar_signed (by decide)]
    omega
  rw [← Int.emod_emod_of_dvd _ hDvd, hFour, Int.emod_emod_of_dvd _ hDvd]

theorem readsKnown_iff (known : IntType) (hv : type.InRange v) :
    extendScalar known.bytes known.signed
        (if type.bytes = 4 ∧ (known.bytes = 4 → known.signed = true) then
          extendScalar 4 true (lowWord type v)
        else lowWord type v) = wordOf v ↔
      known.Fits v ∧ (known.bytes ≤ type.bytes ∨ LoadsRight type v) := by
  rw [extendScalar_eq_wordOf_iff known _ hv]
  refine and_congr_right' ?_
  have hLow := cast_lowWord type v
  by_cases hNarrow : known.bytes ≤ type.bytes
  · refine iff_of_true ?_ (.inl hNarrow)
    have hDvd : (2 : Int) ^ (8 * known.bytes) ∣ 2 ^ (8 * type.bytes) :=
      pow_dvd_pow 2 (by omega)
    split
    · rename_i hFour
      rw [extendScalar_four_emod _ (hFour.1 ▸ hNarrow), hLow, Int.emod_emod_of_dvd _ hDvd]
    · rw [hLow, Int.emod_emod_of_dvd _ hDvd]
  · have hFour : (type.bytes = 4 ∧ (known.bytes = 4 → known.signed = true)) ↔ type.bytes = 4 :=
      and_iff_left_of_imp fun h hKnown => absurd (Nat.le_of_eq (hKnown.trans h.symm)) hNarrow
    have hKnown := known.bytes_cases
    rw [or_iff_right hNarrow]
    simp only [hFour]
    rw [inRange_iff] at hv
    unfold LoadsRight
    generalize known.bytes = k at *
    rcases hKnown with rfl | rfl | rfl | rfl <;> cases type <;>
      simp (disch := decide) only [IntType.bytes, IntType.signed, if_true, Bool.false_eq_true,
        if_false, Nat.reduceEqDiff, Nat.reduceLT, Nat.reduceLeDiff, not_true_eq_false,
        false_implies, true_implies, true_and, and_true, toNat_extendScalar_signed] at * <;>
      omega

theorem loadsRight_iff (hv : type.InRange v) :
    (if type.bytes = 4 then extendScalar 4 true (lowWord type v) else lowWord type v) = wordOf v ↔
      LoadsRight type v := by
  have hWide : 8 ≤ type.bytes → LoadsRight type v := fun h => ⟨by omega, by omega⟩
  have h := readsKnown_iff .int64 hv
  simp only [show IntType.int64.bytes = 8 from rfl, extendScalar_eight, IntType.Fits,
    Nat.reduceEqDiff, false_implies, and_true, true_or, true_and] at h
  rw [h, or_iff_right_of_imp hWide]

theorem loadedWord_unknown
    (h : loadNeedsSignExtend context destination type.bytes = (type.bytes == 4))
    : loadedWord context destination type.bytes w =
      if type.bytes = 4 then extendScalar 4 true w else w := by
  rw [loadedWord, h]
  simp

theorem loadedWord_known (h : context.symbolType name = some known) :
    loadedWord context (.symbol name) type.bytes w =
      if type.bytes = 4 ∧ (known.bytes = 4 → known.signed = true) then extendScalar 4 true w
      else w := by
  have hNeeds : loadNeedsSignExtend context (.symbol name) type.bytes = true ↔
      type.bytes = 4 ∧ (known.bytes = 4 → known.signed = true) := by
    simp only [loadNeedsSignExtend, h, Bool.and_eq_true, beq_iff_eq]
    split <;> simp_all
  rw [loadedWord]
  simp only [hNeeds]

theorem readsBack_iff (hv : type.InRange v) : storedWord context destination
        (loadedWord context destination type.bytes (lowWord type v)) = wordOf v ↔
      ReadsBack context type v destination := by
  have hUnknown : loadNeedsSignExtend context destination type.bytes = (type.bytes == 4) →
      (loadedWord context destination type.bytes (lowWord type v) = wordOf v ↔
        LoadsRight type v) := by
    intro h
    rw [loadedWord_unknown h]
    exact loadsRight_iff hv
  cases destination with
  | symbol name =>
    cases hType : context.symbolType name with
    | none =>
      have hNeeds : loadNeedsSignExtend context (.symbol name) type.bytes = (type.bytes == 4) := by
        simp [loadNeedsSignExtend, hType]
      simp only [ReadsBack, storedWord, hType]
      cases context.assignedRegister name <;> exact hUnknown hNeeds
    | some known =>
      have hKnown := readsKnown_iff known hv
      rw [← loadedWord_known hType] at hKnown
      simp only [ReadsBack, storedWord, hType]
      cases hRegister : context.assignedRegister name with
      | none =>
        exact hKnown
      | some register =>
        simp only [isSome_some, true_and, movedWord]
        by_cases hFour : known.bytes = 4
        · simp only [hFour, if_true, ne_eq, not_true_eq_false, if_false] at hKnown ⊢
          exact hKnown
        · have hNeeds : loadNeedsSignExtend context (.symbol name) type.bytes =
              (type.bytes == 4) := by
            simp [loadNeedsSignExtend, hType, hFour]
          simp only [hFour, if_false, ne_eq, not_false_eq_true, if_true]
          exact hUnknown hNeeds
  | _ => exact hUnknown (by simp [loadNeedsSignExtend])

theorem bytesAt_store {stored : X86State} {address : Word}
    (h : stored.memory = writeLE state.memory address type.bytes (wordOf v).toNat) :
    bytesAt stored address type.bytes = lowWord type v := by
  have hBytes := type.bytes_cases
  rw [bytesAt, h, readLE_writeLE _ _ (by omega), lowWord]

end RoundTrip

-- ---
-- Stores and loads of a type
-- ---

/-- `*address = value` at the type. -/
def storeOf (type : IntType) (address value : IROperand) : IRInstruction :=
  { op := .store, dest := address, lhs := value, rhs := .int type.bytes }

/-- `destination = *address` at the type. -/
def loadOf (type : IntType) (destination address : IROperand) : IRInstruction :=
  { op := .load, dest := destination, lhs := address, rhs := .int type.bytes }

/-- The code for a load of the type, by itself or fused with the computation of its address,
with the address it reads in a state. -/
inductive LoadCode (context : BinaryFunctionContext) (state : X86State) (type : IntType)
    (destination : IROperand) : Word → List X86 → Prop
  | plain {source : IROperand} {code : List X86} :
    emitLoad context (loadOf type destination source) = some code →
    LoadCode context state type destination (directWord context state source) code
  | addressAdd {lhs rhs source : IROperand} {addressCode code : List X86} :
    emitAddressAddToRax context lhs rhs = some addressCode →
    emitFusedLoad context addressCode (loadOf type destination source) = some code →
    LoadCode context state type destination
      (operandWord context state lhs + operandWord context state rhs) code
  | scaled {base index source : IROperand} {scale : Nat} {addressCode code : List X86} :
    emitScaledAddressToRax context base index scale = some addressCode →
    emitFusedLoad context addressCode (loadOf type destination source) = some code →
    LoadCode context state type destination
      (operandWord context state base + operandWord context state index * BitVec.ofNat 64 scale)
      code

/-- **When a load gives back what was stored.** Storing a value of an integer type changes the
bytes of the type and no others, and code that then loads that type from the same address,
plain or fused, leaves the value in the destination exactly if the destination reads it back. -/
theorem memory_round_trip_iff (context : BinaryFunctionContext) (type : IntType) (v : Int)
    (hv : type.InRange v) (state : X86State) (address value : IROperand) (storeCode : List X86)
    (hStore : emitStore context (storeOf type address value) = some storeCode)
    (hValue : directWord context state value = wordOf v) :
    ∃ stored, executeCode context.globalAddress state storeCode = some stored ∧
      (∀ p, type.bytes ≤ (p - directWord context state address).toNat →
        stored.memory p = state.memory p) ∧
      ∀ destination code, destination ≠ .none →
        LoadCode context stored type destination (directWord context state address) code →
        ∃ loaded, executeCode context.globalAddress stored code = some loaded ∧
          (homeWord context loaded destination = wordOf v ↔
            ReadsBack context type v destination) := by
  have hPos : 0 < type.bytes := by
    have := type.bytes_cases
    omega
  obtain ⟨stored, hStored, hMemory⟩ := emitStore_executes state hPos hStore
  rw [hValue] at hMemory
  refine ⟨stored, hStored, ?_, ?_⟩
  · intro p hp
    rw [hMemory]
    exact writeLE_of_outside hp
  · intro destination code hDestination hLoad
    have hLoads : LoadsTo context stored (directWord context state address) type.bytes
        destination code := by
      generalize hAddress : directWord context state address = target at hLoad ⊢
      cases hLoad with
      | plain hCode => exact emitLoad_loads hPos hDestination hCode
      | addressAdd hAddressCode hCode =>
        obtain ⟨addressed, hAddressed, hSame, hRax⟩ := emitAddressAdd_executes stored hAddressCode
        rw [← hRax]
        exact emitFusedLoad_loads hPos hDestination hAddressed hSame hCode
      | scaled hAddressCode hCode =>
        obtain ⟨addressed, hAddressed, hSame, hRax⟩ :=
          emitScaledAddress_executes stored hAddressCode
        rw [← hRax]
        exact emitFusedLoad_loads hPos hDestination hAddressed hSame hCode
    obtain ⟨loaded, hLoaded, hHome⟩ := hLoads
    refine ⟨loaded, hLoaded, ?_⟩
    rw [hHome, bytesAt_store hMemory]
    exact readsBack_iff hv

/-! ### A byte through a pointer -/

theorem none_nonvolatile (_ : String) (register : GpRegister) (h : none = some register) :
    register.isWin64Nonvolatile = true :=
  nomatch h

def oneTempContext : BinaryFunctionContext where
  tempOffset name := if name = "t" then some 8 else none
  symbolOffset _ := none
  assignedRegister _ := none
  aliasOf name := name
  symbolType _ := none
  constValue _ := none
  globalAddress _ := 0
  assigned_nonvolatile := none_nonvolatile

def oneTempState : X86State where
  registers register := if register = .rbp then 4096 else 0
  memory _ := 0
  flags := none

/-- 200 is stored as a `uint8` and loaded to the temp. -/
theorem memory_round_trip_iff_byte : ∃ stored loaded,
      executeCode oneTempContext.globalAddress oneTempState
        [.movImm .rcx 200, .movImm .rax 8192, .store 1 (.at .rax 0) .rcx] = some stored ∧
      executeCode oneTempContext.globalAddress stored
        [.movImm .rax 8192, .load 1 .rax (.at .rax 0), .store 8 (slot 8) .rax] = some loaded ∧
      homeWord oneTempContext loaded (.temp "t") = wordOf 200 := by
  obtain ⟨stored, hStored, -, hLoads⟩ := memory_round_trip_iff oneTempContext .uint8 200
    (by decide) oneTempState (.int 8192) (.int 200) _ rfl rfl
  have hPlain : LoadCode oneTempContext stored .uint8 (.temp "t")
      (directWord oneTempContext stored (.int 8192))
      [.movImm .rax 8192, .load 1 .rax (.at .rax 0), .store 8 (slot 8) .rax] := .plain rfl
  obtain ⟨loaded, hLoaded, hIff⟩ := hLoads (.temp "t") _ (by decide) hPlain
  refine ⟨stored, loaded, hStored, hLoaded, hIff.mpr ?_⟩
  exact ⟨fun _ => by decide, fun h => by cases h⟩

/-- **A negative byte comes back positive.** -/
theorem not_round_trip_negative_byte : IntType.int8.InRange (-1) ∧
      emitStore oneTempContext (storeOf .int8 (.int 8192) (.int (-1))) =
        some [.movImm .rcx (-1), .movImm .rax 8192, .store 1 (.at .rax 0) .rcx] ∧
      emitLoad oneTempContext (loadOf .int8 (.temp "t") (.int 8192)) =
        some [.movImm .rax 8192, .load 1 .rax (.at .rax 0), .store 8 (slot 8) .rax] ∧
      ∃ loaded, executeCode oneTempContext.globalAddress oneTempState
          [.movImm .rcx (-1), .movImm .rax 8192, .store 1 (.at .rax 0) .rcx,
           .movImm .rax 8192, .load 1 .rax (.at .rax 0), .store 8 (slot 8) .rax] = some loaded ∧
        homeWord oneTempContext loaded (.temp "t") = 255 ∧
        homeWord oneTempContext loaded (.temp "t") ≠ wordOf (-1) := by
  refine ⟨by decide, by decide, by decide, _, rfl, ?_, ?_⟩
  · decide
  · decide

end Mettle.Codegen
