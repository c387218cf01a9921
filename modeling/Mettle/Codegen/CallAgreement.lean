import Mettle.Codegen.AbiSpec

/-!
# Mettle — the places of arguments

`code_generator_binary_emit_call` and `code_generator_binary_emit_prologue` compute the
addresses of the arguments from one layout but from different bases: the caller from
`rsp` inside its outgoing frame, the callee from its own `rbp`. The caller puts its copies
of by-value structs at the bottom of the outgoing frame, below the shadow space. The
callee does not know about them, so the two agree only when there is no such copy, or
when nothing that lies above the copies is ever looked at.

Both functions are modelled from the point where the callee's signature is known, that
is, after the runtime helpers with an emitter of their own have been taken out. This module
has the places; the moves that fill and empty them are those of `CallMoves`.
-/

namespace Mettle.Codegen

/-! ## The signature -/

structure FunctionSignature where
  parameterTypes : List (Option ResolvedType)
  returnType : Option ResolvedType
  deriving DecidableEq

def FunctionSignature.returnsIndirect (signature : FunctionSignature) : Bool :=
  codeGeneratorAbiClassify signature.returnType == .indirect

def INT_MAX : Int := 2147483647

/-- The value an `int` keeps of `x`. -/
def cInt (x : Int) : Int := Int.bmod x 4294967296

theorem cInt_of_range {x : Int} (hLo : -2147483648 ≤ x) (hHi : x < 2147483648) : cInt x = x := by
  unfold cInt
  rw [Int.bmod_def]
  split <;> omega

/-! ## The caller -/

/-- `(sz + 7u) & ~(size_t)7`. -/
def alignedStructSize (size : Nat) : Nat := (size + 7) % 2 ^ 64 / 8 * 8

/-- The copy of a by-value struct, at an offset from `rsp`. -/
structure StructCopy where
  offset : Int
  size : Nat
  deriving DecidableEq

def planIndirectArgs : List (Option ResolvedType) → Int → List StructCopy × Int
  | [], region => ([], region)
  | paramType :: rest, region =>
    match paramType, codeGeneratorAbiClassify paramType with
    | some type, .indirect =>
      let size := codeGeneratorAbiTypeSize type
      let (copies, last) :=
        planIndirectArgs rest (cInt (region + cInt (alignedStructSize size)))
      ({ offset := region, size } :: copies, last)
    | _, _ => planIndirectArgs rest region

def indirectTempRegion (planned : Int) : Int :=
  if planned > 0 then cInt (planned + 15) / 16 * 16 else planned

def callArgIsFloat (paramType : Option ResolvedType) : Bool :=
  codeGeneratorAbiClassify paramType != .indirect &&
    codeGeneratorBinaryResolvedTypeFloatBits paramType != 0

def callIsFloat (signature : FunctionSignature) : List Bool :=
  (if signature.returnsIndirect then [false] else []) ++ signature.parameterTypes.map callArgIsFloat

/-- Where an argument is put or read: a register, or an offset from a base register. -/
inductive ArgPlace
  | gp (gpRegister : BinaryGpRegister)
  | xmm (xmmRegister : BinaryXmmRegister)
  | memory (offset : Int)
  deriving DecidableEq

structure CallPlan where
  arguments : List ArgPlace
  hiddenReturn : Option BinaryGpRegister
  copies : List StructCopy
  callStackTotal : Int
  deriving DecidableEq

/-- Rounds up; `none` where the `int` is exceeded. -/
def binaryAlignUpInt (value alignment : Int) : Option Int :=
  if value < 0 ∨ alignment ≤ 0 then none
  else
    let remainder := value % alignment
    if remainder = 0 then some value
    else if value > INT_MAX - (alignment - remainder) then none
    else some (value + (alignment - remainder))

/-- The place of a location whose stack part starts at `base`. -/
def BinaryArgLocation.place (base : Int) : BinaryArgLocation → ArgPlace
  | .inGpRegister r => .gp r
  | .inXmmRegister r => .xmm r
  | .onStack offset => .memory (base + offset)

/-- `code_generator_binary_emit_call`: where the caller puts everything, relative to `rsp`
at the call instruction. -/
def codeGeneratorBinaryEmitCall (abi : BinaryAbi) (functionName : String)
    (signature : FunctionSignature) : Except String CallPlan :=
  let (copies, planned) := planIndirectArgs signature.parameterTypes 0
  let region := indirectTempRegion planned
  let (locations, stackBytes) := codeGeneratorBinaryComputeArgLayout abi (callIsFloat signature)
  if (stackBytes : Int) > INT_MAX - 64 then
    .error s!"Too many call arguments in function '{functionName}'"
  else
    match binaryAlignUpInt (cInt (region + abi.shadowSpaceSize + stackBytes)) 16 with
    | none => .error s!"Call frame too large in function '{functionName}'"
    | some callStackTotal =>
      .ok { arguments := (locations.drop (if signature.returnsIndirect then 1 else 0)).map
              (BinaryArgLocation.place (region + abi.shadowSpaceSize))
            hiddenReturn :=
              if signature.returnsIndirect then some abi.indirectReturnRegister else none
            copies, callStackTotal }

/-! ## The callee -/

def prologueIsFloat (signature : FunctionSignature) : List Bool :=
  (if signature.returnsIndirect then [false] else []) ++
    signature.parameterTypes.map fun paramType =>
      codeGeneratorBinaryResolvedTypeFloatBits paramType != 0

structure ProloguePlan where
  parameters : List ArgPlace
  hiddenReturn : Option BinaryGpRegister
  deriving DecidableEq

/-- `code_generator_binary_emit_prologue`: where the callee reads its parameters, relative to
its `rbp`. The bound on their number is checked when the function context is prepared. -/
def codeGeneratorBinaryEmitPrologue (abi : BinaryAbi) (functionName : String)
    (signature : FunctionSignature) : Except String ProloguePlan :=
  let hidden : Nat := if signature.returnsIndirect then 1 else 0
  if (signature.parameterTypes.length : Int) >
      INT_MAX / BINARY_FUNCTION_STACK_SLOT_SIZE - hidden then
    .error s!"Too many parameters in function '{functionName}'"
  else
    let (locations, _) := codeGeneratorBinaryComputeArgLayout abi (prologueIsFloat signature)
    .ok { parameters := (locations.drop hidden).map
            (BinaryArgLocation.place (16 + abi.shadowSpaceSize))
          hiddenReturn :=
            if signature.returnsIndirect then some abi.indirectReturnRegister else none }

/-! ## Agreement -/

def ArgPlace.at (base : Int) : ArgPlace → ArgPlace
  | .memory offset => .memory (base + offset)
  | place => place

/-- `call` pushes the return address, the prologue pushes `rbp` and copies `rsp` to it. -/
def calleeRbp (rsp : Int) : Int := rsp - 8 - 8

def StructCopy.Covers (copy : StructCopy) (offset : Int) : Prop :=
  copy.offset ≤ offset ∧ offset < copy.offset + copy.size

/-- The callee has every argument at the place where the caller has it, and no copy of a
struct lies over the callee's shadow space, over a stack argument or over another copy. -/
structure PlacesAgree (abi : BinaryAbi) (call : CallPlan) (prologue : ProloguePlan) :
    Prop where
  arguments : ∀ rsp : Int, call.arguments.map (ArgPlace.at rsp) =
    prologue.parameters.map (ArgPlace.at (calleeRbp rsp))
  hiddenReturn : call.hiddenReturn = prologue.hiddenReturn
  -- no two arguments are put into one place, so none is lost before the call
  distinct : ((call.hiddenReturn.map ArgPlace.gp).toList ++ call.arguments).Nodup
  shadow : ∀ copy ∈ call.copies, ∀ offset, copy.Covers offset →
    ¬ (0 ≤ offset ∧ offset < abi.shadowSpaceSize)
  slots : ∀ copy ∈ call.copies, ∀ slot, .memory slot ∈ call.arguments →
    ∀ offset, copy.Covers offset → ¬ (slot ≤ offset ∧ offset < slot + 8)
  copies : call.copies.Pairwise fun copy copy' =>
    ∀ offset, copy.Covers offset → ¬ copy'.Covers offset

def PassesStruct (signature : FunctionSignature) : Prop :=
  ∃ paramType ∈ signature.parameterTypes, codeGeneratorAbiClassify paramType = .indirect

def structBytes : List (Option ResolvedType) → Nat
  | [] => 0
  | paramType :: rest =>
    match paramType, codeGeneratorAbiClassify paramType with
    | some type, .indirect => (codeGeneratorAbiTypeSize type + 7) / 8 * 8 + structBytes rest
    | _, _ => structBytes rest

/-! ## The copies -/

theorem planIndirectArgs_spec (parameterTypes : List (Option ResolvedType)) (region : Nat)
    (hFits : region + structBytes parameterTypes < 2147483648) :
    (planIndirectArgs parameterTypes region).2 =
        ((region + structBytes parameterTypes : Nat) : Int) ∧
      (∀ copy ∈ (planIndirectArgs parameterTypes region).1, (region : Int) ≤ copy.offset ∧
        0 < copy.size) ∧
      (planIndirectArgs parameterTypes region).1.Pairwise (fun copy copy' =>
        ∀ offset, copy.Covers offset → ¬ copy'.Covers offset) ∧
      ((∃ paramType ∈ parameterTypes, codeGeneratorAbiClassify paramType = .indirect) →
        0 < structBytes parameterTypes ∧
        ∃ copy ∈ (planIndirectArgs parameterTypes region).1, copy.offset = region) ∧
      ((¬ ∃ paramType ∈ parameterTypes, codeGeneratorAbiClassify paramType = .indirect) →
        structBytes parameterTypes = 0 ∧ (planIndirectArgs parameterTypes region).1 = []) := by
  induction parameterTypes generalizing region with
  | nil =>
    refine ⟨rfl, fun copy h => (by cases h), List.Pairwise.nil, ?_, fun _ => ⟨rfl, rfl⟩⟩
    rintro ⟨paramType, hMem, -⟩
    cases hMem
  | cons paramType rest ih =>
    by_cases hKind : codeGeneratorAbiClassify paramType = .indirect
    · -- a parameter passed by reference: its copy stands at `region`
      cases paramType with
      | none => cases hKind
      | some type =>
        have hSize := (classify_indirect hKind).2
        set size := codeGeneratorAbiTypeSize type with hSizeDef
        have hBytes : structBytes (some type :: rest) = (size + 7) / 8 * 8 + structBytes rest := by
          rw [structBytes]
          exact hKind
        have hAligned : alignedStructSize size = (size + 7) / 8 * 8 := by
          rw [alignedStructSize, Nat.mod_eq_of_lt (by omega)]
        have hStep : cInt ((region : Int) + cInt (alignedStructSize size)) =
            ((region + (size + 7) / 8 * 8 : Nat) : Int) := by
          rw [hAligned, cInt_of_range (x := ((size + 7) / 8 * 8 : Nat)) (by omega) (by omega),
            cInt_of_range (by omega) (by omega)]
          rfl
        have hPlan : planIndirectArgs (some type :: rest) region =
            ({ offset := (region : Int), size := size } ::
                (planIndirectArgs rest ((region + (size + 7) / 8 * 8 : Nat) : Int)).1,
              (planIndirectArgs rest ((region + (size + 7) / 8 * 8 : Nat) : Int)).2) := by
          rw [planIndirectArgs]
          · rw [← hSizeDef, hStep]
          · exact hKind
        obtain ⟨hEnd, hCopies, hPairwise, -, -⟩ := ih (region + (size + 7) / 8 * 8) (by omega)
        rw [hPlan, hBytes]
        refine ⟨?_, ?_, ?_, ?_, ?_⟩
        · rw [hEnd, Nat.add_assoc]
        · intro copy hMem
          rcases List.mem_cons.mp hMem with rfl | hRest
          · exact ⟨le_refl _, hSize⟩
          · obtain ⟨hLe, hPos⟩ := hCopies copy hRest
            exact ⟨by omega, hPos⟩
        · refine List.Pairwise.cons ?_ hPairwise
          intro copy hMem offset hHere hThere
          -- later copies start past the rounded size of this one
          have hLe := (hCopies copy hMem).1
          have hUp := hHere.2
          have hLo := hThere.1
          dsimp only at hUp
          omega
        · intro _
          exact ⟨by omega, _, List.mem_cons_self, rfl⟩
        · intro hNone
          exact absurd ⟨some type, List.mem_cons_self, hKind⟩ hNone
    · have hBytes : structBytes (paramType :: rest) = structBytes rest := by
        rw [structBytes]
        rintro type rfl
        exact hKind
      have hPlan : planIndirectArgs (paramType :: rest) region = planIndirectArgs rest region := by
        rw [planIndirectArgs]
        rintro type rfl
        exact hKind
      have hIff : (∃ p ∈ paramType :: rest, codeGeneratorAbiClassify p = .indirect) ↔
          ∃ p ∈ rest, codeGeneratorAbiClassify p = .indirect := by
        constructor
        · rintro ⟨p, hMem, hp⟩
          rcases List.mem_cons.mp hMem with rfl | hRest
          · exact absurd hp hKind
          · exact ⟨p, hRest, hp⟩
        · rintro ⟨p, hMem, hp⟩
          exact ⟨p, List.mem_cons_of_mem _ hMem, hp⟩
      rw [hPlan, hBytes, hIff]
      exact ih region (by rw [hBytes] at hFits; exact hFits)

/-! ## The two sides of one layout -/

theorem callIsFloat_eq_prologueIsFloat (signature : FunctionSignature) :
    callIsFloat signature = prologueIsFloat signature := by
  unfold callIsFloat prologueIsFloat
  congr 1
  apply List.map_congr_left
  intro paramType _
  unfold callArgIsFloat
  by_cases hKind : codeGeneratorAbiClassify paramType = .indirect
  · cases paramType with
    | none => cases hKind
    | some type =>
      rw [hKind, (classify_indirect hKind).1]
      rfl
  · have hNe : (codeGeneratorAbiClassify paramType != .indirect) = true := by
      rw [bne_iff_ne]
      exact hKind
    rw [hNe, Bool.true_and]

def userLocations (abi : BinaryAbi) (signature : FunctionSignature) : List BinaryArgLocation :=
  (codeGeneratorBinaryComputeArgLayout abi (callIsFloat signature)).1.drop
    (if signature.returnsIndirect then 1 else 0)

theorem layout_eq_userLocations {abi : BinaryAbi} (hAbi : LawfulAbi abi)
    (signature : FunctionSignature) :
    (codeGeneratorBinaryComputeArgLayout abi (callIsFloat signature)).1 =
      (if signature.returnsIndirect then [.inGpRegister abi.indirectReturnRegister] else []) ++
        userLocations abi signature := by
  unfold userLocations
  by_cases hHidden : signature.returnsIndirect = true
  · rw [if_pos hHidden, if_pos hHidden]
    have hIsFloat : callIsFloat signature =
        false :: signature.parameterTypes.map callArgIsFloat := by
      rw [callIsFloat, if_pos hHidden]
      rfl
    have hStep : (argLayoutStep abi ⟨0, 0, 0, 0⟩ false).1 =
        .inGpRegister abi.indirectReturnRegister := by
      unfold argLayoutStep
      by_cases hSep : abi.countsClassesSeparately = true
      · rw [if_pos hSep, if_neg Bool.false_ne_true]
        rw [hAbi.hidden]
      · have hInt := (List.getElem_of_getElem? hAbi.hidden).1
        have hFloat := hAbi.tables (by simpa using hSep)
        rw [if_neg hSep]
        dsimp only
        rw [hAbi.hidden, List.getElem?_eq_getElem (by omega)]
        rfl
    have hLayout : (codeGeneratorBinaryComputeArgLayout abi (callIsFloat signature)).1 =
        (argLayoutStep abi ⟨0, 0, 0, 0⟩ false).1 ::
          (argLayoutFrom abi (argLayoutStep abi ⟨0, 0, 0, 0⟩ false).2
            (signature.parameterTypes.map callArgIsFloat)).1 := by
      rw [hIsFloat]
      rfl
    rw [hLayout, hStep]
    rfl
  · rw [if_neg hHidden, if_neg hHidden, List.nil_append, List.drop_zero]

theorem place_injective (base : Int) : Function.Injective (BinaryArgLocation.place base) := by
  intro location location' h
  cases location <;> cases location' <;>
    simp only [BinaryArgLocation.place, ArgPlace.gp.injEq, ArgPlace.xmm.injEq,
      ArgPlace.memory.injEq, reduceCtorEq] at h
  · rw [h]
  · rw [h]
  · rw [BinaryArgLocation.onStack.injEq]
    omega

theorem places_agree_iff (locations : List BinaryArgLocation) (base base' rsp rbp : Int) :
    (locations.map (BinaryArgLocation.place base)).map (ArgPlace.at rsp) =
        (locations.map (BinaryArgLocation.place base')).map (ArgPlace.at rbp) ↔
      rsp + base = rbp + base' ∨ ¬ ∃ offset, .onStack offset ∈ locations := by
  rw [List.map_map, List.map_map, List.map_inj_left]
  constructor
  · intro hAll
    by_cases hStack : ∃ offset, .onStack offset ∈ locations
    · obtain ⟨offset, hMem⟩ := hStack
      have hEq := ArgPlace.memory.inj (hAll _ hMem)
      exact Or.inl (by omega)
    · exact Or.inr hStack
  · intro hCases location hMem
    cases location with
    | inGpRegister r => rfl
    | inXmmRegister r => rfl
    | onStack offset =>
      rcases hCases with hBase | hNone
      · show ArgPlace.memory (rsp + (base + offset)) = ArgPlace.memory (rbp + (base' + offset))
        rw [ArgPlace.memory.injEq]
        omega
      · exact absurd ⟨offset, hMem⟩ hNone

/-! ## The exact condition -/

section Agreement

variable {abi : BinaryAbi} {signature : FunctionSignature} {callerName calleeName : String}
  {call : CallPlan} {prologue : ProloguePlan}

theorem emitCall_ok (h : codeGeneratorBinaryEmitCall abi callerName signature = .ok call) :
    call.arguments = (userLocations abi signature).map (BinaryArgLocation.place
        (indirectTempRegion (planIndirectArgs signature.parameterTypes 0).2 +
          abi.shadowSpaceSize)) ∧
      call.copies = (planIndirectArgs signature.parameterTypes 0).1 ∧
      call.hiddenReturn =
        if signature.returnsIndirect then some abi.indirectReturnRegister else none := by
  unfold codeGeneratorBinaryEmitCall at h
  dsimp only at h
  split at h
  · cases h
  · split at h
    · cases h
    · cases h
      exact ⟨rfl, rfl, rfl⟩

theorem emitPrologue_ok
    (h : codeGeneratorBinaryEmitPrologue abi calleeName signature = .ok prologue) :
    prologue.parameters = (userLocations abi signature).map
        (BinaryArgLocation.place (16 + abi.shadowSpaceSize)) ∧
      prologue.hiddenReturn =
        if signature.returnsIndirect then some abi.indirectReturnRegister else none := by
  unfold codeGeneratorBinaryEmitPrologue at h
  by_cases hMany : (signature.parameterTypes.length : Int) >
      INT_MAX / BINARY_FUNCTION_STACK_SLOT_SIZE -
        ((if signature.returnsIndirect then 1 else 0 : Nat) : Int)
  · rw [if_pos hMany] at h
    cases h
  · rw [if_neg hMany, ← callIsFloat_eq_prologueIsFloat] at h
    cases h
    exact ⟨rfl, rfl⟩

theorem nodup_arguments (hAbi : LawfulAbi abi)
    (hCall : codeGeneratorBinaryEmitCall abi callerName signature = .ok call) :
    ((call.hiddenReturn.map ArgPlace.gp).toList ++ call.arguments).Nodup := by
  obtain ⟨hArguments, -, hHidden⟩ := emitCall_ok hCall
  set base := indirectTempRegion (planIndirectArgs signature.parameterTypes 0).2 +
    (abi.shadowSpaceSize : Int)
  have hPlaces : (call.hiddenReturn.map ArgPlace.gp).toList ++ call.arguments =
      (codeGeneratorBinaryComputeArgLayout abi (callIsFloat signature)).1.map
        (BinaryArgLocation.place base) := by
    rw [layout_eq_userLocations hAbi, List.map_append, hArguments, hHidden]
    by_cases h : signature.returnsIndirect = true
    · rw [if_pos h, if_pos h]
      rfl
    · rw [if_neg h, if_neg h]
      rfl
  rw [hPlaces]
  exact (nodup_argLayoutFrom hAbi _ ⟨0, 0, 0, 0⟩).1.map (place_injective base)

/-- **The places agree exactly when no struct copy gets in the way.** For both conventions
and every signature whose struct copies stay in the range of an `int`: the call and the
prologue have one place for every argument if and only if no parameter is a struct passed
by reference, or the convention is SysV and every argument is in a register. -/
theorem placesAgree_iff (format : BinaryTargetFormat)
    (hCall : codeGeneratorBinaryEmitCall (codeGeneratorBinarySelectAbi format) callerName
      signature = .ok call)
    (hPrologue : codeGeneratorBinaryEmitPrologue (codeGeneratorBinarySelectAbi format) calleeName
      signature = .ok prologue)
    (hFits : structBytes signature.parameterTypes + 16 ≤ 2147483648) :
    PlacesAgree (codeGeneratorBinarySelectAbi format) call prologue ↔
      ¬ PassesStruct signature ∨ (format = .elfX64 ∧
        FitsRegisters (codeGeneratorBinarySelectAbi format) (callIsFloat signature)) := by
  have hAbi := lawfulAbi format
  have hNodup := nodup_arguments hAbi hCall
  obtain ⟨hArguments, hCopies, hHidden⟩ := emitCall_ok hCall
  obtain ⟨hParameters, hHidden'⟩ := emitPrologue_ok hPrologue
  obtain ⟨hPlanned, -, hPairwise, hSome, hNone⟩ :=
    planIndirectArgs_spec signature.parameterTypes 0 (by omega)
  rw [Nat.zero_add] at hPlanned
  rw [Nat.cast_zero] at hPlanned hPairwise hSome hNone
  rw [← hCopies] at hPairwise hSome hNone
  -- the arguments coincide when the region is empty or nothing is on the stack
  have hAgree : (∀ rsp : Int, call.arguments.map (ArgPlace.at rsp) =
      prologue.parameters.map (ArgPlace.at (calleeRbp rsp))) ↔
      indirectTempRegion (structBytes signature.parameterTypes) = 0 ∨ ¬ ∃ offset, .onStack offset ∈
          userLocations (codeGeneratorBinarySelectAbi format) signature := by
    rw [hArguments, hParameters, hPlanned]
    constructor
    · intro h
      rcases (places_agree_iff _ _ _ _ _).mp (h 0) with hBase | hNoStack
      · unfold calleeRbp at hBase
        exact Or.inl (by omega)
      · exact Or.inr hNoStack
    · intro h rsp
      refine (places_agree_iff _ _ _ _ _).mpr ?_
      rcases h with hZero | hNoStack
      · unfold calleeRbp
        exact Or.inl (by omega)
      · exact Or.inr hNoStack
  by_cases hPass : PassesStruct signature
  · obtain ⟨hBytes, copy, hMem, hOffset⟩ := hSome hPass
    have hRegion : indirectTempRegion (structBytes signature.parameterTypes) ≠ 0 := by
      unfold indirectTempRegion
      rw [if_pos (by omega), cInt_of_range (by omega) (by omega)]
      omega
    cases format with
    | coffWin64 =>
      -- the first copy starts at `rsp`, which is where the shadow space starts
      constructor
      · intro h
        have hSize := ((planIndirectArgs_spec signature.parameterTypes 0 (by omega)).2.1 copy (by
          rw [Nat.cast_zero, ← hCopies]
          exact hMem)).2
        have hCovers : copy.Covers 0 := ⟨by omega, by omega⟩
        exact absurd ⟨le_refl _, by decide⟩ (h.shadow copy hMem 0 hCovers)
      · rintro (hNot | ⟨hElf, -⟩)
        · exact absurd hPass hNot
        · cases hElf
    | elfX64 =>
      -- the hidden pointer is in a register, so spilling is about the user's arguments
      have hStack : (∃ offset, .onStack offset ∈ userLocations SYSV_ABI signature) ↔
          ¬ FitsRegisters SYSV_ABI (callIsFloat signature) := by
        rw [← onStack_computeArgLayout_iff rfl,
          layout_eq_userLocations (show LawfulAbi SYSV_ABI from hAbi)]
        by_cases h : signature.returnsIndirect = true
        · rw [if_pos h]
          simp
        · rw [if_neg h]
          rfl
      constructor
      · intro h
        rcases hAgree.mp h.arguments with hZero | hNoStack
        · exact absurd hZero hRegion
        · exact Or.inr ⟨rfl, not_not.mp fun hFull => hNoStack (hStack.mpr hFull)⟩
      · rintro (hNot | ⟨-, hRegisters⟩)
        · exact absurd hPass hNot
        · have hNoStack : ¬ ∃ offset, .onStack offset ∈ userLocations SYSV_ABI signature :=
            fun h => hStack.mp h hRegisters
          refine ⟨hAgree.mpr (Or.inr hNoStack), by rw [hHidden, hHidden'], hNodup, ?_, ?_,
            hPairwise⟩
          · rintro copy' - offset - ⟨hLo, hHi⟩
            exact absurd hHi (not_lt.mpr hLo)
          · intro copy' _ slot hSlot
            -- a slot in memory would be a location on the stack
            rw [hArguments] at hSlot
            obtain ⟨location, hLocation, hPlace⟩ := List.mem_map.mp hSlot
            cases location with
            | inGpRegister r => cases hPlace
            | inXmmRegister r => cases hPlace
            | onStack offset => exact absurd ⟨offset, hLocation⟩ hNoStack
  · obtain ⟨hBytes, hEmpty⟩ := hNone hPass
    constructor
    · intro _
      exact Or.inl hPass
    · intro _
      have hRegion : indirectTempRegion (structBytes signature.parameterTypes) = 0 := by
        rw [hBytes]
        rfl
      refine ⟨hAgree.mpr (Or.inl hRegion), by rw [hHidden, hHidden'], hNodup, ?_, ?_, hPairwise⟩
      · intro copy hMem
        rw [hEmpty] at hMem
        cases hMem
      · intro copy hMem
        rw [hEmpty] at hMem
        cases hMem

end Agreement

end Mettle.Codegen
