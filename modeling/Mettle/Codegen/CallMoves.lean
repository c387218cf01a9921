import Mettle.Lib.Memory
import Mettle.Codegen.CallAgreement

/-!
# Mettle — caller and callee agree on arguments

What `code_generator_binary_emit_call` moves into the places of the arguments, and what
`code_generator_binary_emit_prologue` moves out of them, move by move.

A symbol that is promoted stays in a register, and two of these, `rsi` and `rdi`, are argument
registers of SysV. So an argument that is loaded can overwrite a promoted symbol that a later
argument is, and a parameter that is homed can overwrite one that has not been read yet. Caller and
callee agree exactly when the places do and nothing of this happens.

The words that are moved are followed through registers, outgoing stack arguments and the homes of
the parameters. Where the bytes of a struct copy go is `StructCopy`.
-/

namespace Mettle.Codegen

open List Mettle.Lib

abbrev ArgMove := Move ArgPlace (BitVec 64)

abbrev ArgState := ArgPlace → BitVec 64

-- ---
-- Operands
-- ---

/-- `promotion_registers` of `code_generator_binary_promote_hot_symbols`. -/
def promotionCandidates : List BinaryGpRegister := [.r12, .r13, .r14, .r15, .rbx, .rsi, .rdi]

/-- A register that a symbol can be promoted to. -/
abbrev PromotionRegister := { register : BinaryGpRegister // register ∈ promotionCandidates }

/-- What an argument is: a promoted symbol, or anything that the code of a call does not write: a
literal, an address, or the word in a slot of the caller or in a global. -/
inductive ArgOperand
  | promoted (register : PromotionRegister) (type : Option ResolvedType)
  | fixed (w : BitVec 64)

/-- `code_generator_binary_resolved_type_scalar_size`. -/
def resolvedTypeScalarSize : Option ResolvedType → Nat
  | none => 8
  | some type =>
    if type.kind = .pointer ∨ type.kind = .functionPointer then 8
    else if 0 < type.size ∧ type.size ≤ 8 then type.size
    else 8

/-- `code_generator_binary_resolved_type_is_signed_integer`. -/
def resolvedTypeIsSignedInteger : Option ResolvedType → Bool
  | some type =>
    type.kind == .int8 || type.kind == .int16 || type.kind == .int32 || type.kind == .int64
  | none => false

/-- `code_generator_binary_emit_reg_reg_move`, between different registers. -/
def regRegMove (type : Option ResolvedType) (w : BitVec 64) : BitVec 64 :=
  if resolvedTypeScalarSize type = 4 then
    if resolvedTypeIsSignedInteger type then (w.setWidth 32).signExtend 64
    else (w.setWidth 32).setWidth 64
  else w

/-- `movd` and `movq` between a register and an XMM register. -/
def floatMove (floatBits : Nat) (w : BitVec 64) : BitVec 64 :=
  if floatBits = 32 then (w.setWidth 32).setWidth 64 else w

/-- `code_generator_binary_emit_call_argument_load`. A symbol that is in the target already stays
there. -/
def emitCallArgumentLoad (operand : ArgOperand) (target : BinaryGpRegister) : List ArgMove :=
  match operand with
  | .fixed w => [{ target := .gp target, source := .word w }]
  | .promoted register type =>
    if target = register then []
    else [{ target := .gp target, source := .place (.gp register), change := regRegMove type }]

/-- `code_generator_binary_emit_float_call_argument`. -/
def emitFloatCallArgument (operand : ArgOperand) (floatBits : Nat) (target : BinaryXmmRegister) :
    List ArgMove :=
  emitCallArgumentLoad operand .rax ++
    [{ target := .xmm target, source := .place (.gp .rax), change := floatMove floatBits }]

-- ---
-- The call
-- ---

structure CallArgument where
  operand : ArgOperand
  -- where a by-value struct stands
  address : BitVec 64

/-- A call of a function with this signature, in a frame whose `rsp` at the call is known. -/
structure ArgumentPassing (signature : FunctionSignature) where
  arguments : List CallArgument
  rsp : BitVec 64
  -- the slot for a struct that is returned
  returnSlot : BitVec 64
  counted : arguments.length = signature.parameterTypes.length

/-- What is known of an argument when its code is emitted. -/
structure ArgSetup where
  paramType : Option ResolvedType
  argument : CallArgument
  copy : Option StructCopy
  location : BinaryArgLocation

/-- The copy of an argument that is passed by reference, at the end of the region so far. -/
def structCopy (paramType : Option ResolvedType) (region : Int) : Option StructCopy :=
  match paramType, codeGeneratorAbiClassify paramType with
  | some type, .indirect => some { offset := region, size := codeGeneratorAbiTypeSize type }
  | _, _ => none

def regionBehind (region : Int) : Option StructCopy → Int
  | some copy => cInt (region + cInt (alignedStructSize copy.size))
  | none => region

def argSetups : List (Option ResolvedType) → List CallArgument → List BinaryArgLocation → Int →
    List ArgSetup
  | paramType :: types, argument :: arguments, location :: locations, region =>
    { paramType, argument, copy := structCopy paramType region, location } ::
      argSetups types arguments locations (regionBehind region (structCopy paramType region))
  | _, _, _, _ => []

variable {signature : FunctionSignature}

def ArgumentPassing.setups (abi : BinaryAbi) (site : ArgumentPassing signature) : List ArgSetup :=
  argSetups signature.parameterTypes site.arguments (userLocations abi signature) 0

/-- The copy of a struct: `rep movsb` counts `rcx` down and `rsi` and `rdi` up. -/
def emitStructCopy (rsp : BitVec 64) (address : BitVec 64) (copy : StructCopy) : List ArgMove :=
  [{ target := .gp .rax, source := .word address },
   { target := .gp .rdx, source := .word (rsp + BitVec.ofInt 64 copy.offset) },
   { target := .gp .rsi, source := .place (.gp .rax) },
   { target := .gp .rdi, source := .place (.gp .rdx) },
   { target := .gp .rcx, source := .word (BitVec.ofNat 64 copy.size) },
   { target := .gp .rsi, source := .place (.gp .rsi), change := (· + BitVec.ofNat 64 copy.size) },
   { target := .gp .rdi, source := .place (.gp .rdi), change := (· + BitVec.ofNat 64 copy.size) },
   { target := .gp .rcx, source := .word 0 }]

/-- What is passed: of a struct the address of its copy. -/
def ArgSetup.operand (rsp : BitVec 64) (setup : ArgSetup) : ArgOperand :=
  match setup.copy with
  | some copy => .fixed (rsp + BitVec.ofInt 64 copy.offset)
  | none => setup.argument.operand

/-- The code of one argument. -/
def ArgSetup.moves (rsp : BitVec 64) (base : Int) (setup : ArgSetup) : List ArgMove :=
  match setup.location with
  | .onStack offset =>
    emitCallArgumentLoad (setup.operand rsp) .rax ++
      [{ target := .memory (base + offset), source := .place (.gp .rax) }]
  | .inGpRegister register => emitCallArgumentLoad (setup.operand rsp) register
  | .inXmmRegister register =>
    emitFloatCallArgument (setup.operand rsp)
      (codeGeneratorBinaryResolvedTypeFloatBits setup.paramType) register

def BinaryArgLocation.isOnStack : BinaryArgLocation → Bool
  | .onStack _ => true
  | _ => false

def hiddenReturnSetup (abi : BinaryAbi) (site : ArgumentPassing signature) : List ArgSetup :=
  if signature.returnsIndirect then
    [{ paramType := none
       argument := { operand := .fixed site.returnSlot, address := 0 }
       copy := none
       location := .inGpRegister abi.indirectReturnRegister }]
  else []

/-- The arguments in the order of their code: those on the stack, those in registers, and the
address for the struct that is returned. -/
def ArgumentPassing.loads (abi : BinaryAbi) (site : ArgumentPassing signature) : List ArgSetup :=
  (site.setups abi).filter (·.location.isOnStack) ++
    (site.setups abi).filter (!·.location.isOnStack) ++ hiddenReturnSetup abi site

def ArgumentPassing.copies (abi : BinaryAbi) (site : ArgumentPassing signature) : List ArgMove :=
  (site.setups abi).flatMap fun setup =>
    match setup.copy with
    | some copy => emitStructCopy site.rsp setup.argument.address copy
    | none => []

def stackBase (abi : BinaryAbi) (signature : FunctionSignature) : Int :=
  indirectTempRegion (planIndirectArgs signature.parameterTypes 0).2 + abi.shadowSpaceSize

/-- The moves of `code_generator_binary_emit_call`. -/
def ArgumentPassing.moves (abi : BinaryAbi) (site : ArgumentPassing signature) : List ArgMove :=
  site.copies abi ++ (site.loads abi).flatMap (ArgSetup.moves site.rsp (stackBase abi signature))

-- ---
-- The prologue
-- ---

/-- The registers that the parameters of a function are promoted to. No two of them share one. -/
structure Promotion (signature : FunctionSignature) where
  registers : List (Option PromotionRegister)
  counted : registers.length = signature.parameterTypes.length
  distinct : (registers.filterMap id).Nodup

structure ParameterSetup where
  floatBits : Nat
  location : BinaryArgLocation
  home : ArgPlace

/-- The home slot of a parameter: `[rbp - 8]` is the first. -/
def homeSlot (index : Nat) : ArgPlace :=
  .memory (-((index + 1) * BINARY_FUNCTION_STACK_SLOT_SIZE : Nat))

def parameterSetups : List (Option ResolvedType) → List (Option PromotionRegister) →
    List BinaryArgLocation → Nat → List ParameterSetup
  | paramType :: types, register :: registers, location :: locations, index =>
    { floatBits := codeGeneratorBinaryResolvedTypeFloatBits paramType, location
      home := match register with
        | some register => .gp register
        | none => homeSlot index } :: parameterSetups types registers locations (index + 1)
  | _, _, _, _ => []

/-- A slot is filled through `rax`. -/
def moveHome (home source : ArgPlace) (change : BitVec 64 → BitVec 64) : List ArgMove :=
  match home with
  | .gp register => [{ target := .gp register, source := .place source, change }]
  | slot =>
    [{ target := .gp .rax, source := .place source, change },
     { target := slot, source := .place (.gp .rax) }]

/-- The code that homes one parameter. -/
def ParameterSetup.moves (base : Int) (setup : ParameterSetup) : List ArgMove :=
  match setup.location with
  | .inGpRegister source => [{ target := setup.home, source := .place (.gp source) }]
  | .inXmmRegister source => moveHome setup.home (.xmm source) (floatMove setup.floatBits)
  | .onStack offset => moveHome setup.home (.memory (base + offset)) id

/-- The parameters in the order of their code, behind the address for the struct that is
returned. -/
def Promotion.setups (abi : BinaryAbi) (promotion : Promotion signature) : List ParameterSetup :=
  (if signature.returnsIndirect then
    [{ floatBits := 0, location := .inGpRegister abi.indirectReturnRegister, home := homeSlot 0 }]
  else []) ++
    parameterSetups signature.parameterTypes promotion.registers (userLocations abi signature)
      (if signature.returnsIndirect then 1 else 0)

/-- The moves of `code_generator_binary_emit_prologue`, from places relative to its `rbp`. -/
def Promotion.moves (abi : BinaryAbi) (promotion : Promotion signature) : List ArgMove :=
  (promotion.setups abi).flatMap (ParameterSetup.moves (16 + abi.shadowSpaceSize))

-- ---
-- Agreement
-- ---

/-- At the call every place has what the code of its own argument puts there. -/
def ArgumentPassing.Puts (abi : BinaryAbi) (site : ArgumentPassing signature) : Prop :=
  ∀ setup ∈ site.loads abi, ∀ start : ArgState,
    runMoves (site.moves abi) start (setup.location.place (stackBase abi signature)) =
      runMoves (setup.moves site.rsp (stackBase abi signature)) start
        (setup.location.place (stackBase abi signature))

/-- Behind the prologue every home has what the code of its own parameter takes from the place of
the parameter. -/
def Promotion.Reads (abi : BinaryAbi) (promotion : Promotion signature) : Prop :=
  ∀ setup ∈ promotion.setups abi, ∀ entry : ArgState,
    runMoves (promotion.moves abi) entry setup.home =
      runMoves (setup.moves (16 + abi.shadowSpaceSize)) entry setup.home

/-- The places are the same, every argument is put into its place, and every parameter is read from
it. -/
structure CallerCalleeAgree (abi : BinaryAbi) (site : ArgumentPassing signature)
    (promotion : Promotion signature) (call : CallPlan) (prologue : ProloguePlan) : Prop where
  places : PlacesAgree abi call prologue
  putsAt : (site.setups abi).map (fun setup => setup.location.place (stackBase abi signature)) =
    call.arguments
  puts : site.Puts abi
  readsAt : (promotion.setups abi).map (fun setup => setup.location.place
    (16 + abi.shadowSpaceSize)) = (prologue.hiddenReturn.map .gp).toList ++ prologue.parameters
  reads : promotion.Reads abi

def ArgOperand.register : ArgOperand → Option BinaryGpRegister
  | .promoted register _ => some register
  | .fixed _ => none

/-- The register of the promoted symbol that an argument is. -/
def ArgSetup.reads (setup : ArgSetup) : Option BinaryGpRegister :=
  match setup.copy with
  | some _ => none
  | none => setup.argument.operand.register

/-- No promoted symbol is an argument behind something that goes into its register. -/
structure ArgumentPassing.LoadsKept (abi : BinaryAbi) (site : ArgumentPassing signature) : Prop where
  copies : PassesStruct signature → ∀ setup ∈ site.loads abi,
    setup.reads ≠ some .rsi ∧ setup.reads ≠ some .rdi
  registers : (site.loads abi).Pairwise fun earlier later => ∀ register ∈ later.reads,
    earlier.location = .inGpRegister register → earlier.reads = some register

/-- No parameter is promoted to the register in which a later one arrives. -/
def Promotion.HomesFree (abi : BinaryAbi) (promotion : Promotion signature) : Prop :=
  (promotion.setups abi).Pairwise fun earlier later =>
    earlier.home ≠ later.location.place (16 + abi.shadowSpaceSize)

-- ---
-- The code of one argument
-- ---

section Argument

variable {operand : ArgOperand} {setup : ArgSetup} {rsp : BitVec 64} {base : Int} {p : ArgPlace}
  {register target : BinaryGpRegister}

theorem ArgOperand.register_mem (h : operand.register = some register) :
    register ∈ promotionCandidates := by
  cases operand with
  | promoted source type =>
    cases h
    exact source.2
  | fixed w => cases h

theorem ArgOperand.register_ne_rax (h : operand.register = some register) : register ≠ .rax := by
  rintro rfl
  exact absurd (ArgOperand.register_mem h) (by decide)

theorem mem_targets_load (h : p ∈ targets (emitCallArgumentLoad operand target)) :
    p = .gp target := by
  unfold emitCallArgumentLoad at h
  split at h
  · exact mem_singleton.mp h
  · split at h
    · cases h
    · exact mem_singleton.mp h

/-- A register is not written if the symbol is in it already. -/
theorem target_mem_load : ArgPlace.gp target ∈ targets (emitCallArgumentLoad operand target) ∨
    operand.register = some target := by
  cases operand with
  | fixed w => exact Or.inl (mem_singleton_self _)
  | promoted source type =>
    by_cases hSame : target = source
    · exact Or.inr (congrArg some hSame.symm)
    · rw [emitCallArgumentLoad, if_neg hSame]
      exact Or.inl (mem_singleton_self _)

theorem load_eq_nil (h : operand.register = some target) :
    emitCallArgumentLoad operand target = [] := by
  cases operand with
  | fixed w => cases h
  | promoted source type =>
    cases h
    exact if_pos rfl

theorem mem_places_load (h : p ∈ places (emitCallArgumentLoad operand target)) :
    ∃ register, operand.register = some register ∧ p = .gp register := by
  unfold emitCallArgumentLoad at h
  split at h
  · cases h
  · rename_i source type
    split at h
    · cases h
    · exact ⟨source, rfl, mem_singleton.mp h⟩

theorem regRegMove_zero_ne_one (type : Option ResolvedType) :
    regRegMove type 0 ≠ regRegMove type 1 := by
  unfold regRegMove
  split
  · split <;> decide
  · decide

/-- What a load makes of the symbol's word. -/
theorem load_word (target : BinaryGpRegister) (h : operand.register = some register) :
    ∃ word : BitVec 64 → BitVec 64, (∀ s : ArgState,
      runMoves (emitCallArgumentLoad operand target) s (.gp target) = word (s (.gp register))) ∧
      (word = id ∨ ∃ type, word = regRegMove type) := by
  cases operand with
  | fixed w => cases h
  | promoted source type =>
    cases h
    by_cases hSame : target = source
    · refine ⟨id, fun s => ?_, Or.inl rfl⟩
      rw [emitCallArgumentLoad, if_pos hSame, hSame]
      rfl
    · refine ⟨regRegMove type, fun s => ?_, Or.inr ⟨type, rfl⟩⟩
      rw [emitCallArgumentLoad, if_neg hSame]
      exact Function.update_self _ _ _

theorem ArgSetup.operand_register (rsp : BitVec 64) :
    (setup.operand rsp).register = setup.reads := by
  unfold ArgSetup.operand ArgSetup.reads
  split <;> rfl

/-- The code of an argument writes its place, and `rax`. -/
theorem ArgSetup.mem_targets (h : p ∈ targets (setup.moves rsp base)) :
    p = .gp .rax ∨ p = setup.location.place base := by
  unfold ArgSetup.moves at h
  split at h
  · rename_i offset hLocation
    rw [targets_append, mem_append] at h
    rw [hLocation]
    exact h.imp mem_targets_load mem_singleton.mp
  · rename_i target hLocation
    rw [hLocation]
    exact Or.inr (mem_targets_load h)
  · rename_i target hLocation
    rw [emitFloatCallArgument, targets_append, mem_append] at h
    rw [hLocation]
    exact h.imp mem_targets_load mem_singleton.mp

/-- A place is not written if the argument is in it already. -/
theorem ArgSetup.place_mem_targets (setup : ArgSetup) (rsp : BitVec 64) (base : Int) :
    setup.location.place base ∈ targets (setup.moves rsp base) ∨
      ∃ register, setup.reads = some register ∧ setup.location = .inGpRegister register := by
  unfold ArgSetup.moves
  cases hLocation : setup.location with
  | inGpRegister target =>
    refine target_mem_load.imp id fun hHere => ⟨target, ?_, rfl⟩
    rw [← ArgSetup.operand_register rsp, hHere]
  | inXmmRegister target =>
    left
    dsimp only
    rw [emitFloatCallArgument, targets_append]
    exact mem_append_right _ (mem_singleton_self _)
  | onStack offset =>
    left
    dsimp only
    rw [targets_append]
    exact mem_append_right _ (mem_singleton_self _)

/-- An argument that is in its place already has no code. -/
theorem ArgSetup.moves_eq_nil (hReads : setup.reads = some register)
    (hLocation : setup.location = .inGpRegister register) : setup.moves rsp base = [] := by
  rw [ArgSetup.moves, hLocation]
  exact load_eq_nil ((ArgSetup.operand_register rsp).trans hReads)

/-- The code of an argument reads the register of a promoted symbol at most. -/
theorem ArgSetup.mem_places (h : p ∈ places (setup.moves rsp base)) :
    ∃ register, setup.reads = some register ∧ p = .gp register := by
  have hLoad : ∀ target, p ∈ places (emitCallArgumentLoad (setup.operand rsp) target) →
      ∃ register, setup.reads = some register ∧ p = .gp register := by
    intro target hp
    obtain ⟨register, hRegister, hIs⟩ := mem_places_load hp
    exact ⟨register, (ArgSetup.operand_register rsp).symm.trans hRegister, hIs⟩
  -- the load into `rax` writes what is read from it
  have hRax : ∀ m : ArgMove, m.source = .place (.gp .rax) →
      p ∈ places (emitCallArgumentLoad (setup.operand rsp) .rax ++ [m]) →
      ∃ register, setup.reads = some register ∧ p = .gp register := by
    intro m hSource hp
    rcases mem_places_append hp with hp | ⟨hp, hNot⟩
    · exact hLoad _ hp
    · obtain rfl : p = .gp .rax := by simpa [places, hSource] using hp
      refine absurd (target_mem_load.resolve_right fun hRegister => ?_) hNot
      exact ArgOperand.register_ne_rax hRegister rfl
  unfold ArgSetup.moves at h
  split at h
  · exact hRax _ rfl h
  · exact hLoad _ h
  · exact hRax _ rfl h

/-- What the code of an argument makes of a promoted symbol tells 0 from 1. -/
theorem ArgSetup.word (rsp : BitVec 64) (base : Int) (h : setup.reads = some register) :
    ∃ word : BitVec 64 → BitVec 64, (∀ s : ArgState,
      runMoves (setup.moves rsp base) s (setup.location.place base) = word (s (.gp register))) ∧
      word 0 ≠ word 1 := by
  have hOperand : (setup.operand rsp).register = some register :=
    (ArgSetup.operand_register rsp).trans h
  have hTells : ∀ word : BitVec 64 → BitVec 64, (word = id ∨ ∃ type, word = regRegMove type) →
      word 0 ≠ word 1 ∧ ∀ floatBits, floatMove floatBits (word 0) ≠ floatMove floatBits (word 1) := by
    rintro word (rfl | ⟨type, rfl⟩)
    · refine ⟨by decide, fun floatBits => ?_⟩
      unfold floatMove
      split <;> decide
    · refine ⟨regRegMove_zero_ne_one type, fun floatBits => ?_⟩
      unfold floatMove regRegMove
      split <;> split <;> first | decide | (split <;> decide)
  unfold ArgSetup.moves
  cases hLocation : setup.location with
  | inGpRegister target =>
    obtain ⟨word, hWord, hIs⟩ := load_word target hOperand
    exact ⟨word, hWord, (hTells word hIs).1⟩
  | inXmmRegister target =>
    obtain ⟨word, hWord, hIs⟩ := load_word .rax hOperand
    refine ⟨fun w => floatMove (codeGeneratorBinaryResolvedTypeFloatBits setup.paramType) (word w),
      fun s => ?_, (hTells word hIs).2 _⟩
    dsimp only
    rw [emitFloatCallArgument, runMoves_append, ← hWord]
    exact Function.update_self _ _ _
  | onStack offset =>
    obtain ⟨word, hWord, hIs⟩ := load_word .rax hOperand
    refine ⟨word, fun s => ?_, (hTells word hIs).1⟩
    dsimp only
    rw [runMoves_append, ← hWord]
    exact Function.update_self _ _ _

end Argument

-- ---
-- The code of a call
-- ---

section Call

variable {abi : BinaryAbi} {site : ArgumentPassing signature} {setup : ArgSetup}
  {register : BinaryGpRegister}

theorem setups_location {types : List (Option ResolvedType)} {arguments : List CallArgument}
    {locations : List BinaryArgLocation} (region : Int) (hArguments : arguments.length = types.length)
    (hLocations : locations.length = types.length) :
    (argSetups types arguments locations region).map ArgSetup.location = locations := by
  induction types generalizing arguments locations region with
  | nil =>
    rw [length_eq_zero_iff.mp hLocations]
    rfl
  | cons paramType types ih =>
    obtain ⟨argument, arguments, rfl⟩ := exists_cons_of_length_eq_add_one hArguments
    obtain ⟨location, locations, rfl⟩ := exists_cons_of_length_eq_add_one hLocations
    exact congrArg (location :: ·) (ih _ (Nat.succ.inj hArguments) (Nat.succ.inj hLocations))

theorem planIndirectArgs_cons (paramType : Option ResolvedType) (types : List (Option ResolvedType))
    (region : Int) : (planIndirectArgs (paramType :: types) region).1 =
      (structCopy paramType region).toList ++
        (planIndirectArgs types (regionBehind region (structCopy paramType region))).1 := by
  unfold structCopy
  cases paramType with
  | none => rfl
  | some type =>
    cases hKind : codeGeneratorAbiClassify (some type) <;> simp [planIndirectArgs, hKind, regionBehind]

/-- The copies are those of the plan. -/
theorem setups_copies {types : List (Option ResolvedType)} {arguments : List CallArgument}
    {locations : List BinaryArgLocation} (region : Int) (hArguments : arguments.length = types.length)
    (hLocations : locations.length = types.length) :
    (argSetups types arguments locations region).filterMap ArgSetup.copy =
      (planIndirectArgs types region).1 := by
  induction types generalizing arguments locations region with
  | nil => rfl
  | cons paramType types ih =>
    obtain ⟨argument, arguments, rfl⟩ := exists_cons_of_length_eq_add_one hArguments
    obtain ⟨location, locations, rfl⟩ := exists_cons_of_length_eq_add_one hLocations
    rw [argSetups, filterMap_cons, ih _ (Nat.succ.inj hArguments) (Nat.succ.inj hLocations),
      planIndirectArgs_cons]
    cases structCopy paramType region <;> rfl

theorem planIndirectArgs_eq_nil {types : List (Option ResolvedType)} {region : Int} :
    (planIndirectArgs types region).1 = [] ↔
      ¬ ∃ paramType ∈ types, codeGeneratorAbiClassify paramType = .indirect := by
  induction types generalizing region with
  | nil => simp [planIndirectArgs]
  | cons paramType types ih =>
    have hCopy : (structCopy paramType region).toList = [] ↔
        codeGeneratorAbiClassify paramType ≠ .indirect := by
      unfold structCopy
      cases paramType with
      | none => simp [codeGeneratorAbiClassify]
      | some type => cases codeGeneratorAbiClassify (some type) <;> simp
    rw [planIndirectArgs_cons, append_eq_nil_iff, ih, exists_mem_cons_iff, not_or, hCopy]

theorem length_argLayoutFrom (abi : BinaryAbi) (cursor : ArgCursor) (isFloat : List Bool) :
    (argLayoutFrom abi cursor isFloat).1.length = isFloat.length := by
  induction isFloat generalizing cursor with
  | nil => rfl
  | cons wantsFloat rest ih => exact congrArg (· + 1) (ih _)

theorem length_userLocations (abi : BinaryAbi) (signature : FunctionSignature) :
    (userLocations abi signature).length = signature.parameterTypes.length := by
  rw [userLocations, length_drop, codeGeneratorBinaryComputeArgLayout, length_argLayoutFrom,
    callIsFloat, length_append, length_map]
  split <;> simp

def hiddenLocation (abi : BinaryAbi) (signature : FunctionSignature) : List BinaryArgLocation :=
  if signature.returnsIndirect then [.inGpRegister abi.indirectReturnRegister] else []

/-- The locations of the loads are those of the layout, in another order. -/
theorem loads_perm : ((site.loads abi).map ArgSetup.location).Perm
    (userLocations abi signature ++ hiddenLocation abi signature) := by
  have hSetups : (site.setups abi).map ArgSetup.location = userLocations abi signature :=
    setups_location 0 site.counted (length_userLocations abi signature)
  have hHidden : (hiddenReturnSetup abi site).map ArgSetup.location =
      hiddenLocation abi signature := by
    unfold hiddenReturnSetup hiddenLocation
    split <;> rfl
  rw [ArgumentPassing.loads, map_append, hHidden, ← hSetups]
  exact ((filter_append_perm _ _).map _).append_right _

variable (hAbi : LawfulAbi abi)
include hAbi

theorem layout_perm : (userLocations abi signature ++ hiddenLocation abi signature).Perm
    (codeGeneratorBinaryComputeArgLayout abi (callIsFloat signature)).1 := by
  rw [layout_eq_userLocations hAbi]
  exact perm_append_comm

variable (site) in
theorem loads_nodup : ((site.loads abi).map ArgSetup.location).Nodup :=
  (loads_perm.trans (layout_perm hAbi)).nodup_iff.mpr (nodup_argLayoutFrom hAbi _ ⟨0, 0, 0, 0⟩).1

/-- No argument is in `rax`. -/
theorem layout_not_rax (hRax : .rax ∉ abi.intParamRegisters) {base : Int} {isFloat : List Bool}
    {location : BinaryArgLocation}
    (hMem : location ∈ (codeGeneratorBinaryComputeArgLayout abi isFloat).1) :
    location.place base ≠ .gp .rax := by
  have hFree := (nodup_argLayoutFrom hAbi _ ⟨0, 0, 0, 0⟩).2 _ hMem
  cases location with
  | inGpRegister register =>
    obtain ⟨k, -, hk⟩ := hFree
    intro hIs
    rw [ArgPlace.gp.inj hIs] at hk
    exact hRax (mem_of_getElem? hk)
  | inXmmRegister register => exact nofun
  | onStack offset => exact nofun

theorem loads_not_rax (hRax : .rax ∉ abi.intParamRegisters) {base : Int}
    (hSetup : setup ∈ site.loads abi) : setup.location.place base ≠ .gp .rax :=
  layout_not_rax hAbi hRax
    ((loads_perm.trans (layout_perm hAbi)).mem_iff.mp (mem_map_of_mem hSetup))

omit hAbi

theorem copies_targets {p : ArgPlace} (h : p ∈ targets (site.copies abi)) :
    PassesStruct signature ∧ ∀ register, p = .gp register → register ∈ promotionCandidates →
      register = .rsi ∨ register = .rdi := by
  rw [ArgumentPassing.copies, mem_targets_flatMap] at h
  obtain ⟨setup, hSetup, hp⟩ := h
  cases hCopy : setup.copy with
  | none =>
    rw [hCopy] at hp
    cases hp
  | some copy =>
    rw [hCopy] at hp
    constructor
    · by_contra hNone
      have hPlan := setups_copies 0 site.counted (length_userLocations abi signature)
      rw [planIndirectArgs_eq_nil.mpr hNone, filterMap_eq_nil_iff] at hPlan
      have := hPlan setup hSetup
      rw [hCopy] at this
      cases this
    · rintro register rfl hPromoted
      simp only [emitStructCopy, targets, map_cons, map_nil, mem_cons, ArgPlace.gp.injEq,
        not_mem_nil, or_false] at hp
      rcases hp with rfl | rfl | rfl | rfl | rfl | rfl | rfl | rfl <;>
        first | exact Or.inl rfl | exact Or.inr rfl | exact absurd hPromoted (by decide)

/-- Behind the copies `rsi` and `rdi` are what the copies made of them. -/
theorem copies_fixed (hPass : PassesStruct signature) (hRegister : register = .rsi ∨ register = .rdi)
    (s t : ArgState) :
    runMoves (site.copies abi) s (.gp register) = runMoves (site.copies abi) t (.gp register) := by
  have hOne : ∀ (address : BitVec 64) (copy : StructCopy),
      places (emitStructCopy site.rsp address copy) = [] := by
    intro address copy
    simp [emitStructCopy, places]
  have hNone : ∀ setups : List ArgSetup, places (setups.flatMap fun setup =>
      match setup.copy with
      | some copy => emitStructCopy site.rsp setup.argument.address copy
      | none => []) = [] := by
    intro setups
    induction setups with
    | nil => rfl
    | cons setup setups ih =>
      refine eq_nil_iff_forall_not_mem.mpr fun q hq => ?_
      rw [flatMap_cons] at hq
      rcases mem_places_append hq with hq | ⟨hq, -⟩
      · cases hCopy : setup.copy with
        | none =>
          rw [hCopy] at hq
          cases hq
        | some copy =>
          rw [hCopy] at hq
          dsimp only at hq
          rw [hOne] at hq
          cases hq
      · rw [ih] at hq
        cases hq
  refine runMoves_congr (fun q hq => ?_) (Or.inr ?_)
  · rw [ArgumentPassing.copies, hNone] at hq
    cases hq
  · obtain ⟨copy, hCopy⟩ : ∃ copy, copy ∈ (planIndirectArgs signature.parameterTypes 0).1 := by
      refine exists_mem_of_ne_nil _ fun hNil => ?_
      exact planIndirectArgs_eq_nil.mp hNil hPass
    rw [← setups_copies 0 site.counted (length_userLocations abi signature), mem_filterMap] at hCopy
    obtain ⟨setup, hSetup, hCopy⟩ := hCopy
    rw [ArgumentPassing.copies, mem_targets_flatMap]
    refine ⟨setup, hSetup, ?_⟩
    rw [hCopy]
    rcases hRegister with rfl | rfl <;> simp [emitStructCopy, targets]

/-- What an argument is read from is not written before its code. -/
theorem LoadsKept.read_kept (hKept : site.LoadsKept abi) {before after : List ArgSetup}
    (hSplit : site.loads abi = before ++ setup :: after) (hReads : setup.reads = some register)
    (base : Int) : ArgPlace.gp register ∉
      targets (site.copies abi ++ before.flatMap (ArgSetup.moves site.rsp base)) := by
  have hPromoted : register ∈ promotionCandidates :=
    ArgOperand.register_mem ((ArgSetup.operand_register site.rsp).trans hReads)
  have hSetup : setup ∈ site.loads abi := hSplit ▸ mem_append_right _ mem_cons_self
  rw [targets_append, mem_append, mem_targets_flatMap]
  rintro (hCopies | ⟨earlier, hEarlier, hp⟩)
  · obtain ⟨hPass, hOnly⟩ := copies_targets hCopies
    obtain ⟨hSi, hDi⟩ := hKept.copies hPass setup hSetup
    rcases hOnly register rfl hPromoted with rfl | rfl
    · exact hSi hReads
    · exact hDi hReads
  · rcases ArgSetup.mem_targets hp with hRax | hPlace
    · cases hRax
      exact absurd hPromoted (by decide)
    · have hLocation : earlier.location = .inGpRegister register := by
        cases hCase : earlier.location <;> rw [hCase] at hPlace <;> cases hPlace
        rfl
      have hPairwise := hKept.registers
      rw [hSplit, pairwise_append] at hPairwise
      have hSame := hPairwise.2.2 earlier hEarlier setup mem_cons_self register hReads hLocation
      rw [ArgSetup.moves_eq_nil hSame hLocation] at hp
      cases hp

section

variable (hAbi : LawfulAbi abi) (hRax : .rax ∉ abi.intParamRegisters)
include hAbi hRax

/-- Nothing behind the code of an argument writes its place. -/
theorem place_kept {before after : List ArgSetup}
    (hSplit : site.loads abi = before ++ setup :: after) (base : Int) :
    setup.location.place base ∉ targets (after.flatMap (ArgSetup.moves site.rsp base)) := by
  have hSetup : setup ∈ site.loads abi := hSplit ▸ mem_append_right _ mem_cons_self
  rw [mem_targets_flatMap]
  rintro ⟨later, hLater, hp⟩
  rcases ArgSetup.mem_targets hp with hIs | hPlace
  · exact loads_not_rax hAbi hRax hSetup hIs
  · have hNodup := loads_nodup site hAbi
    rw [hSplit, map_append, nodup_append, map_cons, nodup_cons] at hNodup
    exact hNodup.2.1.1 (place_injective base hPlace ▸ mem_map_of_mem hLater)

theorem LoadsKept.puts (hKept : site.LoadsKept abi) : site.Puts abi := by
  intro setup hSetup start
  obtain ⟨before, after, hSplit⟩ := append_of_mem hSetup
  have hMoves : site.moves abi =
      (site.copies abi ++ before.flatMap (ArgSetup.moves site.rsp (stackBase abi signature))) ++
        (setup.moves site.rsp (stackBase abi signature) ++
          after.flatMap (ArgSetup.moves site.rsp (stackBase abi signature))) := by
    rw [ArgumentPassing.moves, hSplit, flatMap_append, flatMap_cons, append_assoc]
  rw [hMoves]
  refine runMoves_undisturbed (fun q hq => ?_) ?_ (place_kept hAbi hRax hSplit _)
  · obtain ⟨register, hReads, rfl⟩ := ArgSetup.mem_places hq
    exact LoadsKept.read_kept hKept hSplit hReads _
  · refine (ArgSetup.place_mem_targets _ _ _).imp id ?_
    rintro ⟨register, hReads, hLocation⟩
    rw [hLocation]
    exact LoadsKept.read_kept hKept hSplit hReads _

/-- What an argument makes of a promoted symbol is what it makes of the word that is in its register
when its code is reached. -/
theorem Puts.word (hPuts : site.Puts abi) {before after : List ArgSetup}
    (hSplit : site.loads abi = before ++ setup :: after) (hReads : setup.reads = some register)
    (content : BitVec 64)
    (hContent : ∀ s : ArgState, (∀ place, place ≠ .gp register → s place = 0) →
      runMoves (site.copies abi ++
        before.flatMap (ArgSetup.moves site.rsp (stackBase abi signature))) s (.gp register) =
          content) : False := by
  have hSetup : setup ∈ site.loads abi := hSplit ▸ mem_append_right _ mem_cons_self
  obtain ⟨word, hWord, hTells⟩ :=
    ArgSetup.word site.rsp (stackBase abi signature) hReads
  have hMoves : site.moves abi =
      (site.copies abi ++ before.flatMap (ArgSetup.moves site.rsp (stackBase abi signature))) ++
        (setup.moves site.rsp (stackBase abi signature) ++
          after.flatMap (ArgSetup.moves site.rsp (stackBase abi signature))) := by
    rw [ArgumentPassing.moves, hSplit, flatMap_append, flatMap_cons, append_assoc]
  have hEq : ∀ w : BitVec 64, word content = word w := by
    intro w
    obtain ⟨s, hs⟩ : ∃ s : ArgState, s = Function.update (fun _ => 0) (.gp register) w := ⟨_, rfl⟩
    have hAt : s (.gp register) = w := by rw [hs, Function.update_self]
    have hPut := hPuts setup hSetup s
    rw [hMoves, runMoves_append, runMoves_append,
      runMoves_of_not_mem (place_kept hAbi hRax hSplit _), hWord, hWord, hAt] at hPut
    rw [← hPut, hContent]
    intro place hNe
    rw [hs, Function.update_of_ne hNe]
  exact hTells ((hEq 0).symm.trans (hEq 1))

theorem Puts.registers (hPuts : site.Puts abi) :
    (site.loads abi).Pairwise fun earlier later => ∀ register ∈ later.reads,
      earlier.location = .inGpRegister register → earlier.reads = some register := by
  rw [pairwise_iff_forall_sublist]
  intro earlier later hSublist register hReads hLocation
  by_contra hOther
  obtain ⟨first, rest, hLoads, hEarlier, hLater⟩ := cons_sublist_iff.mp hSublist
  obtain ⟨before, between, rfl⟩ := append_of_mem hEarlier
  obtain ⟨between', after, rfl⟩ := append_of_mem (singleton_sublist.mp hLater)
  have hSplit : site.loads abi = (before ++ earlier :: (between ++ between')) ++ later :: after := by
    rw [hLoads]
    simp
  have hSplit' : site.loads abi = before ++ earlier :: (between ++ between' ++ later :: after) := by
    rw [hSplit]
    simp
  have hMem : earlier ∈ site.loads abi := hSplit' ▸ mem_append_right _ mem_cons_self
  have hKeep := place_kept hAbi hRax hSplit' (stackBase abi signature)
  rw [hLocation] at hKeep
  change ArgPlace.gp register ∉ _ at hKeep
  have hMoves : site.moves abi =
      (site.copies abi ++ (before ++ earlier :: (between ++ between')).flatMap
        (ArgSetup.moves site.rsp (stackBase abi signature))) ++
        (later :: after).flatMap (ArgSetup.moves site.rsp (stackBase abi signature)) := by
    rw [ArgumentPassing.moves, hSplit, flatMap_append, append_assoc]
  rw [flatMap_append, targets_append, mem_append, not_or] at hKeep
  -- what is in the register when the later argument is loaded was put there by the earlier one
  refine Puts.word hAbi hRax hPuts hSplit hReads
    (runMoves (earlier.moves site.rsp (stackBase abi signature)) (fun _ => 0) (.gp register)) ?_
  intro s hZero
  have hPut := hPuts earlier hMem s
  rw [hLocation] at hPut
  change runMoves _ s (ArgPlace.gp register) = runMoves _ s (ArgPlace.gp register) at hPut
  rw [hMoves, runMoves_append, runMoves_of_not_mem hKeep.2] at hPut
  rw [hPut]
  refine runMoves_congr (fun q hq => ?_) (Or.inr ?_)
  · obtain ⟨source, hSource, rfl⟩ := ArgSetup.mem_places hq
    refine hZero _ fun hIs => hOther ?_
    cases hIs
    exact hSource
  · have hTarget := ArgSetup.place_mem_targets earlier site.rsp (stackBase abi signature)
    rw [hLocation] at hTarget
    refine hTarget.resolve_right ?_
    rintro ⟨source, hSource, hIs⟩
    cases hIs
    exact hOther hSource

theorem Puts.loadsKept (hPuts : site.Puts abi) : site.LoadsKept abi := by
  have hRegisters := Puts.registers hAbi hRax hPuts
  refine ⟨fun hPass setup hSetup => ?_, hRegisters⟩
  have hNot : ∀ register, register = .rsi ∨ register = .rdi → setup.reads ≠ some register := by
    intro register hIs hReads
    obtain ⟨before, after, hSplit⟩ := append_of_mem hSetup
    refine Puts.word hAbi hRax hPuts hSplit hReads
      (runMoves (site.copies abi) (fun _ => 0) (.gp register)) ?_
    intro s _
    rw [runMoves_append, runMoves_of_not_mem, copies_fixed hPass hIs s]
    -- between the copies and the argument the register is not written
    rw [mem_targets_flatMap]
    rintro ⟨earlier, hEarlier, hp⟩
    rcases ArgSetup.mem_targets hp with hRaxIs | hPlace
    · rcases hIs with rfl | rfl <;> cases hRaxIs
    · have hLocation : earlier.location = .inGpRegister register := by
        cases hCase : earlier.location <;> rw [hCase] at hPlace <;> cases hPlace
        rfl
      rw [hSplit, pairwise_append] at hRegisters
      have hSame := hRegisters.2.2 earlier hEarlier setup mem_cons_self register hReads hLocation
      rw [ArgSetup.moves_eq_nil hSame hLocation] at hp
      cases hp
  exact ⟨hNot .rsi (Or.inl rfl), hNot .rdi (Or.inr rfl)⟩

end

end Call

-- ---
-- The code of the prologue
-- ---

section Prologue

variable {abi : BinaryAbi} {promotion : Promotion signature} {setup : ParameterSetup} {base : Int}
  {p : ArgPlace}

theorem mem_targets_moveHome {home source : ArgPlace} {change : BitVec 64 → BitVec 64}
    (h : p ∈ targets (moveHome home source change)) : p = .gp .rax ∨ p = home := by
  unfold moveHome at h
  split at h
  · exact Or.inr (mem_singleton.mp h)
  · exact (mem_cons.mp h).imp id mem_singleton.mp

theorem ParameterSetup.mem_targets (h : p ∈ targets (setup.moves base)) :
    p = .gp .rax ∨ p = setup.home := by
  unfold ParameterSetup.moves at h
  split at h
  · exact Or.inr (mem_singleton.mp h)
  · exact mem_targets_moveHome h
  · exact mem_targets_moveHome h

theorem home_mem_moveHome {home source : ArgPlace} {change : BitVec 64 → BitVec 64} :
    home ∈ targets (moveHome home source change) := by
  unfold moveHome
  split <;> simp [targets]

theorem ParameterSetup.home_mem_targets : setup.home ∈ targets (setup.moves base) := by
  unfold ParameterSetup.moves
  split
  · exact mem_singleton_self _
  · exact home_mem_moveHome
  · exact home_mem_moveHome

theorem places_moveHome {home source : ArgPlace} {change : BitVec 64 → BitVec 64} :
    places (moveHome home source change) = [source] := by
  unfold moveHome
  split <;> simp [places]

/-- The code of a parameter reads its place. -/
theorem ParameterSetup.places_eq : places (setup.moves base) = [setup.location.place base] := by
  unfold ParameterSetup.moves
  cases setup.location with
  | inGpRegister source => rfl
  | inXmmRegister source => exact places_moveHome
  | onStack offset => exact places_moveHome

theorem runMoves_moveHome {home source : ArgPlace} {change : BitVec 64 → BitVec 64} (s : ArgState) :
    runMoves (moveHome home source change) s home = change (s source) := by
  unfold moveHome
  split
  · exact Function.update_self _ _ _
  · rw [runMoves_cons, runMoves_cons, runMoves_nil, Function.update_self]
    exact Function.update_self (ArgPlace.gp .rax) (change (s source)) s

/-- What the code of a parameter makes of the word in its place. -/
theorem ParameterSetup.word (setup : ParameterSetup) (base : Int) :
    ∃ word : BitVec 64 → BitVec 64, (∀ s : ArgState,
      runMoves (setup.moves base) s setup.home = word (s (setup.location.place base))) ∧
      word 0 = 0 ∧ ∀ register, setup.location = .inGpRegister register → word = id := by
  unfold ParameterSetup.moves
  cases setup.location with
  | inGpRegister source =>
    exact ⟨id, fun s => Function.update_self _ _ _, rfl, fun _ _ => rfl⟩
  | inXmmRegister source =>
    refine ⟨floatMove setup.floatBits, runMoves_moveHome, ?_, nofun⟩
    unfold floatMove
    split <;> decide
  | onStack offset => exact ⟨id, runMoves_moveHome, rfl, nofun⟩

theorem homeSlot_injective {i j : Nat} (h : homeSlot i = homeSlot j) : i = j := by
  unfold homeSlot BINARY_FUNCTION_STACK_SLOT_SIZE at h
  have hOffset := ArgPlace.memory.inj h
  omega

theorem parameterSetups_homes (types : List (Option ResolvedType))
    {registers : List (Option PromotionRegister)} (locations : List BinaryArgLocation) (index : Nat)
    (hDistinct : (registers.filterMap id).Nodup) :
    ((parameterSetups types registers locations index).map ParameterSetup.home).Nodup ∧
      ∀ home ∈ (parameterSetups types registers locations index).map ParameterSetup.home,
        (∃ register : PromotionRegister, some register ∈ registers ∧ home = .gp register) ∨
          ∃ k, index ≤ k ∧ home = homeSlot k := by
  induction types generalizing registers locations index with
  | nil => exact ⟨nodup_nil, nofun⟩
  | cons paramType types ih =>
    match registers, locations with
    | [], _ => exact ⟨nodup_nil, nofun⟩
    | _ :: _, [] => exact ⟨nodup_nil, nofun⟩
    | register :: registers, location :: locations =>
      have hRest : (registers.filterMap id).Nodup := by
        rw [filterMap_cons] at hDistinct
        split at hDistinct
        · exact hDistinct
        · exact (nodup_cons.mp hDistinct).2
      obtain ⟨hNodup, hHomes⟩ := ih locations (index + 1) hRest
      have hLater : ∀ home ∈
          (parameterSetups types registers locations (index + 1)).map ParameterSetup.home,
          (∃ source : PromotionRegister, some source ∈ register :: registers ∧ home = .gp source) ∨
            ∃ k, index ≤ k ∧ home = homeSlot k := by
        intro home hMem
        rcases hHomes home hMem with ⟨source, hSource, hIs⟩ | ⟨k, hk, hIs⟩
        · exact Or.inl ⟨source, mem_cons_of_mem _ hSource, hIs⟩
        · exact Or.inr ⟨k, by omega, hIs⟩
      cases register with
      | none =>
        refine ⟨nodup_cons.mpr ⟨fun hMem => ?_, hNodup⟩, fun home hMem => ?_⟩
        · rcases hHomes _ hMem with ⟨source, -, hIs⟩ | ⟨k, hk, hIs⟩
          · cases hIs
          · have := homeSlot_injective hIs
            omega
        · rcases mem_cons.mp hMem with rfl | hMem
          · exact Or.inr ⟨index, le_rfl, rfl⟩
          · exact hLater home hMem
      | some source =>
        refine ⟨nodup_cons.mpr ⟨fun hMem => ?_, hNodup⟩, fun home hMem => ?_⟩
        · rcases hHomes _ hMem with ⟨other, hOther, hIs⟩ | ⟨k, -, hIs⟩
          · obtain rfl : source = other := Subtype.ext (ArgPlace.gp.inj hIs)
            rw [filterMap_cons] at hDistinct
            exact (nodup_cons.mp hDistinct).1 (mem_filterMap.mpr ⟨_, hOther, rfl⟩)
          · cases hIs
        · rcases mem_cons.mp hMem with rfl | hMem
          · exact Or.inl ⟨source, mem_cons_self, rfl⟩
          · exact hLater home hMem

theorem parameterSetups_location (types : List (Option ResolvedType))
    {registers : List (Option PromotionRegister)} {locations : List BinaryArgLocation} (index : Nat)
    (hRegisters : registers.length = types.length) (hLocations : locations.length = types.length) :
    (parameterSetups types registers locations index).map ParameterSetup.location = locations := by
  induction types generalizing registers locations index with
  | nil =>
    rw [length_eq_zero_iff.mp hLocations]
    rfl
  | cons paramType types ih =>
    obtain ⟨register, registers, rfl⟩ := exists_cons_of_length_eq_add_one hRegisters
    obtain ⟨location, locations, rfl⟩ := exists_cons_of_length_eq_add_one hLocations
    exact congrArg (location :: ·) (ih _ (Nat.succ.inj hRegisters) (Nat.succ.inj hLocations))

/-- No two parameters have one home, and a home is the register of a promoted symbol or a slot of
the frame. -/
theorem homes_nodup (abi : BinaryAbi) (promotion : Promotion signature) :
    ((promotion.setups abi).map ParameterSetup.home).Nodup ∧
    ∀ home ∈ (promotion.setups abi).map ParameterSetup.home,
      (∃ register ∈ promotionCandidates, home = .gp register) ∨ ∃ k, home = homeSlot k := by
  have hHomes := fun index => parameterSetups_homes signature.parameterTypes
    (userLocations abi signature) index promotion.distinct
  have hWeak : ∀ index, ∀ home ∈ (parameterSetups signature.parameterTypes promotion.registers
      (userLocations abi signature) index).map ParameterSetup.home,
      (∃ register ∈ promotionCandidates, home = .gp register) ∨ ∃ k, home = homeSlot k := by
    intro index home hMem
    rcases (hHomes index).2 home hMem with ⟨register, -, hIs⟩ | ⟨k, -, hIs⟩
    · exact Or.inl ⟨register, register.2, hIs⟩
    · exact Or.inr ⟨k, hIs⟩
  unfold Promotion.setups
  split
  · refine ⟨nodup_cons.mpr ⟨fun hMem => ?_, (hHomes 1).1⟩, fun home hMem => ?_⟩
    · rcases (hHomes 1).2 _ hMem with ⟨register, -, hIs⟩ | ⟨k, hk, hIs⟩
      · cases hIs
      · have := homeSlot_injective hIs
        omega
    · rcases mem_cons.mp hMem with rfl | hMem
      · exact Or.inr ⟨0, rfl⟩
      · exact hWeak 1 home hMem
  · exact ⟨(hHomes 0).1, hWeak 0⟩

theorem setup_locations (promotion : Promotion signature) (hAbi : LawfulAbi abi) :
    (promotion.setups abi).map ParameterSetup.location =
    (codeGeneratorBinaryComputeArgLayout abi (callIsFloat signature)).1 := by
  have hUser := fun index => parameterSetups_location signature.parameterTypes index
    promotion.counted (length_userLocations abi signature)
  rw [layout_eq_userLocations hAbi, Promotion.setups, map_append, hUser]
  split <;> rfl

section

variable (hAbi : LawfulAbi abi) (hRax : .rax ∉ abi.intParamRegisters)
include hAbi hRax

theorem setup_not_rax (hSetup : setup ∈ promotion.setups abi) :
    setup.location.place base ≠ .gp .rax := by
  have hMem : setup.location ∈ (codeGeneratorBinaryComputeArgLayout abi (callIsFloat signature)).1 :=
    setup_locations promotion hAbi ▸ mem_map_of_mem hSetup
  exact layout_not_rax hAbi hRax hMem

omit hAbi hRax in
theorem home_not_rax (hSetup : setup ∈ promotion.setups abi) : setup.home ≠ .gp .rax := by
  rcases (homes_nodup abi promotion).2 _ (mem_map_of_mem hSetup) with ⟨register, hMem, hIs⟩ | ⟨k, hIs⟩
  · rw [hIs]
    rintro hRax
    rw [ArgPlace.gp.inj hRax] at hMem
    exact absurd hMem (by decide)
  · rw [hIs]
    exact nofun

omit hAbi hRax in
/-- No home is the place of a parameter on the stack, or of one in an XMM register. -/
theorem home_register {other : ParameterSetup} (hSetup : setup ∈ promotion.setups abi)
    (hIs : setup.home = other.location.place (16 + abi.shadowSpaceSize)) :
    ∃ register, other.location = .inGpRegister register ∧ setup.home = .gp register := by
  have hHome := (homes_nodup abi promotion).2 _ (mem_map_of_mem hSetup)
  cases hLocation : other.location with
  | inGpRegister register =>
    rw [hLocation] at hIs
    exact ⟨register, rfl, hIs⟩
  | inXmmRegister register =>
    rw [hLocation] at hIs
    rcases hHome with ⟨_, -, hHome⟩ | ⟨_, hHome⟩
    · rw [hHome] at hIs
      cases hIs
    · rw [hHome] at hIs
      cases hIs
  | onStack offset =>
    rw [hLocation] at hIs
    rcases hHome with ⟨_, -, hHome⟩ | ⟨k, hHome⟩
    · rw [hHome] at hIs
      cases hIs
    · -- the slots are below `rbp`, the arguments above it
      rw [hHome] at hIs
      have hOffset := ArgPlace.memory.inj hIs
      omega

omit hAbi hRax in
/-- Nothing behind the code of a parameter writes its home. -/
theorem home_kept (base : Int) {before after : List ParameterSetup}
    (hSplit : promotion.setups abi = before ++ setup :: after) :
    setup.home ∉ targets (after.flatMap (ParameterSetup.moves base)) := by
  have hSetup : setup ∈ promotion.setups abi := hSplit ▸ mem_append_right _ mem_cons_self
  rw [mem_targets_flatMap]
  rintro ⟨later, hLater, hp⟩
  rcases ParameterSetup.mem_targets hp with hIs | hHome
  · exact home_not_rax hSetup hIs
  · have hNodup := (homes_nodup abi promotion).1
    rw [hSplit, map_append, nodup_append, map_cons, nodup_cons] at hNodup
    exact hNodup.2.1.1 (hHome ▸ mem_map_of_mem hLater)

theorem HomesFree.reads (hFree : promotion.HomesFree abi) : promotion.Reads abi := by
  intro setup hSetup entry
  obtain ⟨before, after, hSplit⟩ := append_of_mem hSetup
  rw [Promotion.moves, hSplit, flatMap_append, flatMap_cons]
  refine runMoves_undisturbed (fun q hq => ?_) (Or.inl ParameterSetup.home_mem_targets)
    (home_kept _ hSplit)
  rw [ParameterSetup.places_eq, mem_singleton] at hq
  subst hq
  rw [mem_targets_flatMap]
  rintro ⟨earlier, hEarlier, hp⟩
  rcases ParameterSetup.mem_targets hp with hIs | hHome
  · exact setup_not_rax hAbi hRax hSetup hIs
  · rw [Promotion.HomesFree, hSplit, pairwise_append] at hFree
    exact hFree.2.2 earlier hEarlier setup mem_cons_self hHome.symm

omit hRax in
theorem Reads.homesFree (hReads : promotion.Reads abi) : promotion.HomesFree abi := by
  rw [Promotion.HomesFree, pairwise_iff_forall_sublist]
  intro earlier later hSublist hIsPlace
  obtain ⟨first, rest, hSetups, hEarlier, hLater⟩ := cons_sublist_iff.mp hSublist
  obtain ⟨before, between, rfl⟩ := append_of_mem hEarlier
  obtain ⟨between', after, rfl⟩ := append_of_mem (singleton_sublist.mp hLater)
  have hSplit : promotion.setups abi =
      (before ++ earlier :: (between ++ between')) ++ later :: after := by
    rw [hSetups]
    simp
  have hSplit' : promotion.setups abi =
      before ++ earlier :: (between ++ between' ++ later :: after) := by
    rw [hSplit]
    simp
  have hEarlierMem : earlier ∈ promotion.setups abi := hSplit' ▸ mem_append_right _ mem_cons_self
  obtain ⟨register, hLocation, hHome⟩ := home_register hEarlierMem hIsPlace
  -- a word in the register of the later parameter, and 0 everywhere else
  obtain ⟨s, hs⟩ : ∃ s : ArgState, s = Function.update (fun _ => 0) (.gp register) 1 := ⟨_, rfl⟩
  have hLaterMem : later ∈ promotion.setups abi := hSplit ▸ mem_append_right _ mem_cons_self
  have hFirst := hReads earlier hEarlierMem s
  have hSecond := hReads later hLaterMem s
  obtain ⟨word, hWord, hZero, -⟩ :=
    ParameterSetup.word earlier (16 + abi.shadowSpaceSize)
  obtain ⟨word', hWord', -, hId⟩ :=
    ParameterSetup.word later (16 + abi.shadowSpaceSize)
  have hPlace : earlier.location.place (16 + abi.shadowSpaceSize) ≠ .gp register := by
    intro hSame
    have hNodup : ((promotion.setups abi).map ParameterSetup.location).Nodup := by
      rw [setup_locations promotion hAbi]
      exact (nodup_argLayoutFrom hAbi _ ⟨0, 0, 0, 0⟩).1
    have hSameLocation : earlier.location = later.location := by
      refine place_injective (16 + abi.shadowSpaceSize) (hSame.trans ?_)
      rw [hLocation]
      rfl
    rw [hSplit', map_append, nodup_append, map_cons, nodup_cons] at hNodup
    refine hNodup.2.1.1 (hSameLocation ▸ mem_map_of_mem ?_)
    exact mem_append_right _ mem_cons_self
  have hEarlierKept := home_kept (16 + abi.shadowSpaceSize) hSplit'
  have hLaterKept := home_kept (16 + abi.shadowSpaceSize) hSplit
  rw [flatMap_append, targets_append, mem_append, not_or] at hEarlierKept
  -- the earlier parameter is in the register when the later one is read from it
  rw [hWord, hs, Function.update_of_ne hPlace, hZero, ← hs, hHome, Promotion.moves, hSplit,
    flatMap_append, runMoves_append, runMoves_of_not_mem (hHome ▸ hEarlierKept.2)] at hFirst
  rw [hWord', hId register hLocation, hLocation, Promotion.moves, hSplit, flatMap_append,
    runMoves_append, flatMap_cons, runMoves_append, runMoves_of_not_mem hLaterKept, hWord',
    hId register hLocation, hLocation] at hSecond
  change runMoves _ s (ArgPlace.gp register) = s (ArgPlace.gp register) at hSecond
  rw [hFirst, hs, Function.update_self] at hSecond
  exact absurd hSecond (by decide)

end

end Prologue

-- ---
-- Agreement, exactly
-- ---

theorem rax_not_parameter (format : BinaryTargetFormat) :
    .rax ∉ (codeGeneratorBinarySelectAbi format).intParamRegisters := by
  cases format <;> decide

/-- **Caller and callee agree exactly when** no struct is passed by reference, or the convention is
SysV and all arguments are in registers; no promoted symbol is an argument behind something that
goes into its register; and no parameter is promoted to the register in which a later one
arrives. -/
theorem callerCalleeAgree_iff (format : BinaryTargetFormat) (site : ArgumentPassing signature)
    (promotion : Promotion signature) {callerName calleeName : String} {call : CallPlan}
    {prologue : ProloguePlan}
    (hCall : codeGeneratorBinaryEmitCall (codeGeneratorBinarySelectAbi format) callerName
      signature = .ok call)
    (hPrologue : codeGeneratorBinaryEmitPrologue (codeGeneratorBinarySelectAbi format) calleeName
      signature = .ok prologue)
    (hFits : structBytes signature.parameterTypes + 16 ≤ 2147483648) :
    CallerCalleeAgree (codeGeneratorBinarySelectAbi format) site promotion call prologue ↔
      (¬ PassesStruct signature ∨ (format = .elfX64 ∧
        FitsRegisters (codeGeneratorBinarySelectAbi format) (callIsFloat signature))) ∧
      site.LoadsKept (codeGeneratorBinarySelectAbi format) ∧
      promotion.HomesFree (codeGeneratorBinarySelectAbi format) := by
  have hAbi := lawfulAbi format
  have hRax := rax_not_parameter format
  obtain ⟨hArguments, -, -⟩ := emitCall_ok hCall
  obtain ⟨hParameters, hHidden⟩ := emitPrologue_ok hPrologue
  constructor
  · intro hAgree
    exact ⟨(placesAgree_iff format hCall hPrologue hFits).mp hAgree.places,
      Puts.loadsKept hAbi hRax hAgree.puts, Reads.homesFree hAbi hAgree.reads⟩
  · rintro ⟨hPlaces, hKept, hFree⟩
    refine ⟨(placesAgree_iff format hCall hPrologue hFits).mpr hPlaces, ?_,
      LoadsKept.puts hAbi hRax hKept, ?_, HomesFree.reads hAbi hRax hFree⟩
    · rw [hArguments, ← setups_location 0 site.counted (length_userLocations _ signature), map_map]
      rfl
    · have hLocations := congrArg (map (BinaryArgLocation.place
        (16 + (codeGeneratorBinarySelectAbi format).shadowSpaceSize)))
        (setup_locations promotion hAbi)
      rw [map_map, layout_eq_userLocations hAbi, map_append] at hLocations
      rw [hParameters, hHidden]
      refine hLocations.trans (congrArg (· ++ _) ?_)
      split <;> rfl

def int64Type : Option ResolvedType := some ⟨.int64, 8⟩

def sevenSignature : FunctionSignature :=
  { parameterTypes := replicate 7 int64Type ++ [some ⟨.float64, 8⟩], returnType := none }

def promotedArgument (register : PromotionRegister) : CallArgument :=
  { operand := .promoted register int64Type, address := 0 }

def fixedArgument (w : BitVec 64) : CallArgument := { operand := .fixed w, address := 0 }

/-- `f(x, y, x, y, 5, 6, x, 0.0)` with `x` in `rdi` and `y` in `rsi`. -/
def sevenSite : ArgumentPassing sevenSignature where
  arguments :=
    [promotedArgument ⟨.rdi, by decide⟩, promotedArgument ⟨.rsi, by decide⟩,
      promotedArgument ⟨.rdi, by decide⟩, promotedArgument ⟨.rsi, by decide⟩, fixedArgument 5,
      fixedArgument 6, promotedArgument ⟨.rdi, by decide⟩, fixedArgument 0]
  rsp := 4096
  returnSlot := 0
  counted := rfl

/-- The third parameter is promoted to `rdi`, from which the first one has gone to `rbx`. -/
def sevenPromotion : Promotion sevenSignature where
  registers := [some ⟨.rbx, by decide⟩, none, some ⟨.rdi, by decide⟩, none, none, none,
    some ⟨.r12, by decide⟩, none]
  counted := rfl
  distinct := by decide

theorem callerCalleeAgree_seven : ∃ call prologue,
      codeGeneratorBinaryEmitCall (codeGeneratorBinarySelectAbi .elfX64) "main"
        sevenSignature = .ok call ∧
      codeGeneratorBinaryEmitPrologue (codeGeneratorBinarySelectAbi .elfX64) "seven"
        sevenSignature = .ok prologue ∧
      CallerCalleeAgree (codeGeneratorBinarySelectAbi .elfX64) sevenSite sevenPromotion call
        prologue := by
  have hNone : ¬ PassesStruct sevenSignature := by
    unfold PassesStruct
    decide
  have hCall : codeGeneratorBinaryEmitCall (codeGeneratorBinarySelectAbi .elfX64) "main"
      sevenSignature = .ok
        { arguments := [.gp .rdi, .gp .rsi, .gp .rdx, .gp .rcx, .gp .r8, .gp .r9, .memory 0,
            .xmm .xmm0]
          hiddenReturn := none, copies := [], callStackTotal := 16 } := rfl
  have hPrologue : codeGeneratorBinaryEmitPrologue (codeGeneratorBinarySelectAbi .elfX64) "seven"
      sevenSignature = .ok
        { parameters := [.gp .rdi, .gp .rsi, .gp .rdx, .gp .rcx, .gp .r8, .gp .r9, .memory 16,
            .xmm .xmm0]
          hiddenReturn := none } := rfl
  have hKept : sevenSite.LoadsKept (codeGeneratorBinarySelectAbi .elfX64) := by
    refine ⟨fun hPass => absurd hPass hNone, ?_⟩
    decide
  have hFree : sevenPromotion.HomesFree (codeGeneratorBinarySelectAbi .elfX64) := by
    unfold Promotion.HomesFree
    decide
  exact ⟨_, _, hCall, hPrologue, (callerCalleeAgree_iff .elfX64 sevenSite sevenPromotion hCall
    hPrologue (by decide)).mpr ⟨Or.inl hNone, hKept, hFree⟩⟩

def structSignature : FunctionSignature :=
  { parameterTypes := some ⟨.struct, 16⟩ :: replicate 4 int64Type, returnType := none }

def structSite : ArgumentPassing structSignature where
  arguments := replicate 5 (fixedArgument 0)
  rsp := 4096
  returnSlot := 0
  counted := rfl

def structPromotion : Promotion structSignature where
  registers := replicate 5 none
  counted := rfl
  distinct := by decide

def sixSignature : FunctionSignature :=
  { parameterTypes := replicate 6 int64Type, returnType := none }

/-- The first of six parameters is the one that is used least. -/
def sixPromotion : Promotion sixSignature where
  registers := [some ⟨.rsi, by decide⟩, some ⟨.r12, by decide⟩, some ⟨.r13, by decide⟩,
    some ⟨.r14, by decide⟩, some ⟨.r15, by decide⟩, some ⟨.rbx, by decide⟩]
  counted := rfl
  distinct := by decide

def sixEntry : ArgState
  | .gp .rdi => 1
  | .gp .rsi => 2
  | _ => 0

/-- The caller writes the stack argument of `structSignature` at `rsp + 48`, the callee reads it at
`rsp + 32`. And of six words under SysV the second one is lost: the first is moved to `rsi`, and
then `rsi` to the home of the second. -/
theorem not_callerCalleeAgree_struct :
    (¬ ∀ (format : BinaryTargetFormat) (signature : FunctionSignature)
      (site : ArgumentPassing signature)
      (promotion : Promotion signature) (callerName calleeName : String) (call : CallPlan)
      (prologue : ProloguePlan),
      codeGeneratorBinaryEmitCall (codeGeneratorBinarySelectAbi format) callerName signature =
        .ok call →
      codeGeneratorBinaryEmitPrologue (codeGeneratorBinarySelectAbi format) calleeName signature =
        .ok prologue →
      CallerCalleeAgree (codeGeneratorBinarySelectAbi format) site promotion call prologue) ∧
    runMoves (sixPromotion.moves (codeGeneratorBinarySelectAbi .elfX64)) sixEntry (.gp .r12) = 1 := by
  constructor
  · intro hClaim
    have hAgree := hClaim .coffWin64 structSignature structSite structPromotion "main" "f"
      { arguments := [.gp .rcx, .gp .rdx, .gp .r8, .gp .r9, .memory 48], hiddenReturn := none
        copies := [⟨0, 16⟩], callStackTotal := 64 }
      { parameters := [.gp .rcx, .gp .rdx, .gp .r8, .gp .r9, .memory 48], hiddenReturn := none }
      rfl rfl
    exact absurd (hAgree.places.arguments 0) (by decide)
  · decide

end Mettle.Codegen
