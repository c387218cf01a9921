import Mettle.Codegen.CallAgreement
import Mettle.IR.Syntax

/-!
# Mettle — the slots of a stack frame

`code_generator_binary_prepare_function_context` gives every parameter, local and temporary,
every struct that a call returns and every saved register a distance below `rbp`. It works
in passes over the instructions and in `int` arithmetic. Of these passes only the one over
the locals and the final rounding check their sums, and a name that is declared again keeps
the slot of its first declaration whatever its new type is.

The tables of float, string and `cstring` symbols, the aliases and the choice of the
registers to save do not move a slot; the saved registers are an input here.
-/

namespace Mettle.Codegen

open Mettle.IR List

-- ---
-- Types with a layout
-- ---

/-- A type as the frame layout looks at it. -/
structure LaidOutType where
  kind : TypeKind
  size : Nat
  alignment : Nat
  size_aligned : alignment ∣ size
  alignment_dvd : alignment ∣ 8
  deriving DecidableEq

theorem LaidOutType.alignment_pos (type : LaidOutType) : 0 < type.alignment :=
  Nat.pos_of_dvd_of_pos type.alignment_dvd (by decide)

def LaidOutType.resolved (type : LaidOutType) : ResolvedType := ⟨type.kind, type.size⟩

def structExtent : List LaidOutType → Nat × Nat → Nat × Nat
  | [], extent => extent
  | field :: rest, (currentOffset, maxAlignment) =>
    let padding := (field.alignment - currentOffset % field.alignment) % field.alignment
    structExtent rest
      ((currentOffset + padding + field.size) % 2 ^ 64, max maxAlignment field.alignment)

theorem max_dvd_eight {a b : Nat} (ha : a ∣ 8) (hb : b ∣ 8) : max a b ∣ 8 := by
  rcases max_choice a b with h | h
  · rwa [h]
  · rwa [h]

theorem structExtent_alignment (fields : List LaidOutType) (extent : Nat × Nat)
    (h : extent.2 ∣ 8) : (structExtent fields extent).2 ∣ 8 := by
  induction fields generalizing extent with
  | nil => exact h
  | cons field rest ih => exact ih _ (max_dvd_eight h field.alignment_dvd)

theorem dvd_padded {alignment : Nat} (hAlignment : alignment ∣ 8) (offset : Nat) :
    alignment ∣ (offset + (alignment - offset % alignment) % alignment) % 2 ^ 64 := by
  have hPos : 0 < alignment := Nat.pos_of_dvd_of_pos hAlignment (by decide)
  have hRange : alignment ∣ 2 ^ 64 := hAlignment.trans (by decide)
  have hSum : alignment ∣ offset + (alignment - offset % alignment) % alignment := by
    have hLess := Nat.mod_lt offset hPos
    rw [Nat.dvd_iff_mod_eq_zero]
    by_cases hZero : offset % alignment = 0
    · rw [hZero, Nat.sub_zero, Nat.mod_self, Nat.add_zero, hZero]
    · rw [Nat.mod_eq_of_lt (by omega : alignment - offset % alignment < alignment), Nat.add_mod,
        Nat.mod_eq_of_lt (by omega : alignment - offset % alignment < alignment),
        Nat.add_sub_cancel' hLess.le, Nat.mod_self]
  exact (Nat.dvd_mod_iff hRange).mpr hSum

def typeCreateStruct (fields : List LaidOutType) : LaidOutType :=
  let extent := structExtent fields (0, 1)
  { kind := .struct
    size := (extent.1 + (extent.2 - extent.1 % extent.2) % extent.2) % 2 ^ 64
    alignment := extent.2
    size_aligned := dvd_padded (structExtent_alignment fields (0, 1) (by decide)) _
    alignment_dvd := structExtent_alignment fields (0, 1) (by decide) }

/-- `type_create` for the kinds that are as large as they are aligned. -/
def typeCreate (kind : TypeKind) (size : Nat) (hSize : size ∣ 8) : LaidOutType :=
  { kind, size, alignment := size, size_aligned := dvd_refl size, alignment_dvd := hSize }

/-- A type that fits a register. -/
def codeGeneratorBinaryResolvedTypeIsSupported (type : LaidOutType) : Bool :=
  match type.kind with
  | .int8 | .int16 | .int32 | .int64 | .uint8 | .uint16 | .uint32 | .uint64 | .float32 | .float64
  | .pointer | .enum | .functionPointer => decide (type.size ≤ 8)
  | _ => false

/-- A scalar that a slot holds. -/
def codeGeneratorBinaryResolvedTypeIsStackScalar (type : LaidOutType) : Bool :=
  type.kind != .string && (codeGeneratorBinaryResolvedTypeIsSupported type ||
    (type.kind == .float64 && decide (type.size = 8)))

/-- A record passed in one register. -/
def codeGeneratorBinaryTypeIsDirectAggregate (type : LaidOutType) : Bool :=
  codeGeneratorTypeIsAggregate type.resolved &&
    codeGeneratorAbiClassify (some type.resolved) == .direct &&
    decide (0 < type.size ∧ type.size ≤ 8)

def scalarLocal (type : LaidOutType) : Bool :=
  codeGeneratorBinaryResolvedTypeIsStackScalar type || codeGeneratorBinaryTypeIsDirectAggregate type

def localAlignment (type : LaidOutType) : Int :=
  if scalarLocal type then BINARY_FUNCTION_STACK_SLOT_SIZE else type.alignment

/-- The bytes of the slot of a local: `(int)` cuts a larger size off. -/
def localStorageSize (type : LaidOutType) : Int :=
  if scalarLocal type then BINARY_FUNCTION_STACK_SLOT_SIZE else cInt type.size

-- ---
-- The passes
-- ---

/-- What the pass needs to know of a function beside its instructions: its parameters, the
type it returns, the layout of a type name, the return type of a function name, and the
callee-saved registers that the promotion has claimed. -/
structure FrameInput where
  functionName : String
  parameterNames : List String
  returnType : Option ResolvedType
  instructions : List IRInstruction
  typeByName : String → Option LaidOutType
  returnTypeOf : String → Option ResolvedType
  savedRegisters : List BinaryGpRegister

/-- The slot of a local: the type of its first declaration, and the bytes of all locals up to
and including it. -/
structure LocalSlot where
  name : String
  type : LaidOutType
  top : Int
  deriving DecidableEq

/-- The slots so far and their extent. -/
structure LocalState where
  slots : List LocalSlot
  total : Int
  deriving DecidableEq

/-- A new slot below all others, so that the locals now take `top` bytes. -/
def LocalState.extend (state : LocalState) (name : String) (type : LaidOutType) (top : Int) :
    LocalState :=
  { slots := state.slots ++ [{ name, type, top }], total := top }

/-- One `IR_OP_DECLARE_LOCAL`; `parameterHomeSize` lies between `rbp` and the locals. -/
def declareLocal (functionName : String) (parameterHomeSize : Int) (name : String)
    (type : LaidOutType) (state : LocalState) : Except String LocalState :=
  if localStorageSize type ≤ 0 then
    .error s!"Invalid local storage size in function '{functionName}'"
  else if state.slots.any (fun slot => slot.name == name) then .ok state
  else
    match binaryAlignUpInt state.total (localAlignment type) with
    | none => .error s!"Stack frame too large in function '{functionName}'"
    | some aligned =>
      if aligned > INT_MAX - localStorageSize type then
        .error s!"Stack frame too large in function '{functionName}'"
      else if (state.slots.length : Int) + 1 > INT_MAX / BINARY_FUNCTION_STACK_SLOT_SIZE then
        .error s!"Too many locals in function '{functionName}'"
      else if cInt (parameterHomeSize + (aligned + localStorageSize type)) ≤ 0 then
        .error s!"Failed to allocate local slot metadata in function '{functionName}'"
      else
        .ok (state.extend name type (aligned + localStorageSize type))

def declaredType (input : FrameInput) (instruction : IRInstruction) : Option LaidOutType :=
  (instruction.text.bind input.typeByName).filter fun type =>
    type.kind != .void && type.size != 0

def prepareLocals (input : FrameInput) (parameterHomeSize : Int) :
    List IRInstruction → LocalState → Except String LocalState
  | [], state => .ok state
  | instruction :: rest, state =>
    if instruction.op = .declareLocal then
      match instruction.dest with
      | .symbol name =>
        if name = "" then .error s!"Malformed local declaration in function '{input.functionName}'"
        else
          match declaredType input instruction with
          | none =>
            let text := instruction.text.getD "<unknown>"
            .error s!"Direct object backend does not support local type '{text}' in function '{input.functionName}'"
          | some type =>
            (declareLocal input.functionName parameterHomeSize name type state).bind
              (prepareLocals input parameterHomeSize rest)
      | _ => .error s!"Malformed local declaration in function '{input.functionName}'"
    else prepareLocals input parameterHomeSize rest state

/-- The offset of the temporary at position `index` in order of appearance. -/
def tempOffset (parameterHomeSize localStorageTotal : Int) (index : Nat) : Int :=
  cInt (cInt (parameterHomeSize + localStorageTotal) +
    ((index + 1) * BINARY_FUNCTION_STACK_SLOT_SIZE : Nat))

def prepareTemps (functionName : String) (parameterHomeSize localStorageTotal : Int) :
    List IRInstruction → List String → Except String (List String)
  | [], temps => .ok temps
  | instruction :: rest, temps =>
    match instruction.dest with
    | .temp name =>
      if name ∈ temps then prepareTemps functionName parameterHomeSize localStorageTotal rest temps
      else if (temps.length : Int) + 1 > INT_MAX / BINARY_FUNCTION_STACK_SLOT_SIZE then
        .error s!"Too many temporaries in function '{functionName}'"
      else if tempOffset parameterHomeSize localStorageTotal temps.length ≤ 0 then
        .error s!"Failed to allocate temp slot metadata in function '{functionName}'"
      else
        prepareTemps functionName parameterHomeSize localStorageTotal rest (temps ++ [name])
    | _ => prepareTemps functionName parameterHomeSize localStorageTotal rest temps

def indirectReturns (input : FrameInput) : List ResolvedType :=
  input.instructions.filterMap fun instruction =>
    if instruction.op = .call then
      (instruction.text.bind input.returnTypeOf).filter fun type =>
        codeGeneratorAbiClassify (some type) == .indirect
    else none

/-- `(int)((sz + 15u) & ~(size_t)15)`. -/
def returnSlotBytes (type : ResolvedType) : Int :=
  cInt ((codeGeneratorAbiTypeSize type + 15) % 2 ^ 64 / 16 * 16 : Nat)

structure ReturnSlot where
  below : Int
  bytes : Int
  deriving DecidableEq

def prepareReturns : List ResolvedType → Int → List ReturnSlot × Int
  | [], total => ([], total)
  | type :: rest, total =>
    let (slots, last) := prepareReturns rest (cInt (total + returnSlotBytes type))
    ({ below := total, bytes := returnSlotBytes type } :: slots, last)

/-- The prepared frame. -/
structure FrameLayout where
  hiddenReturn : Bool
  parameterCount : Nat
  locals : List LocalSlot
  localStorageTotal : Int
  localHomeSize : Int
  temps : List String
  returnSlots : List ReturnSlot
  indirectReturnTotal : Int
  savedRegisters : List BinaryGpRegister
  rawFrameSize : Int
  frameSize : Int
  deriving DecidableEq

def hiddenReturnSlots (input : FrameInput) : Nat :=
  if codeGeneratorAbiClassify input.returnType == .indirect then 1 else 0

/-- The bytes below `rbp` that home the parameters and the hidden pointer. -/
def parameterHomeSize (input : FrameInput) : Int :=
  ((input.parameterNames.length + hiddenReturnSlots input) * BINARY_FUNCTION_STACK_SLOT_SIZE : Nat)

def returnBase (input : FrameInput) (localHomeSize : Int) (temps : List String) : Int :=
  parameterHomeSize input + localHomeSize + (temps.length * BINARY_FUNCTION_STACK_SLOT_SIZE : Nat)

/-- The layout of a frame, or the text of the refusal. -/
def codeGeneratorBinaryPrepareFunctionContext (input : FrameInput) : Except String FrameLayout :=
  if (input.parameterNames.length : Int) >
      INT_MAX / BINARY_FUNCTION_STACK_SLOT_SIZE - hiddenReturnSlots input then
    .error s!"Too many parameters in function '{input.functionName}'"
  else if ¬ input.parameterNames.Nodup then
    .error s!"Failed to allocate parameter slot metadata in function '{input.functionName}'"
  else
    (prepareLocals input (parameterHomeSize input) input.instructions ⟨[], 0⟩).bind fun state =>
    (prepareTemps input.functionName (parameterHomeSize input) state.total input.instructions
      []).bind fun temps =>
    match binaryAlignUpInt state.total BINARY_FUNCTION_STACK_SLOT_SIZE with
    | none => .error s!"Stack frame too large in function '{input.functionName}'"
    | some localHomeSize =>
      if parameterHomeSize input > INT_MAX - localHomeSize ∨
          parameterHomeSize input + localHomeSize >
            INT_MAX - (temps.length * BINARY_FUNCTION_STACK_SLOT_SIZE : Nat) then
        .error s!"Stack frame too large in function '{input.functionName}'"
      else
        let returns := prepareReturns (indirectReturns input) 0
        let rawFrameSize := cInt (cInt (returnBase input localHomeSize temps + returns.2) +
          (input.savedRegisters.length * BINARY_FUNCTION_STACK_SLOT_SIZE : Nat))
        match binaryAlignUpInt rawFrameSize 16 with
        | none => .error s!"Stack frame too large in function '{input.functionName}'"
        | some frameSize =>
          .ok { hiddenReturn := hiddenReturnSlots input = 1
                parameterCount := input.parameterNames.length
                locals := state.slots, localStorageTotal := state.total, localHomeSize, temps
                returnSlots := returns.1, indirectReturnTotal := returns.2
                savedRegisters := input.savedRegisters, rawFrameSize, frameSize }

-- ---
-- What a sound frame is
-- ---

/-- `bytes` bytes that start `offset` bytes below `rbp`. -/
structure FrameSlot where
  offset : Int
  bytes : Int
  deriving DecidableEq

/-- The byte at `rbp + displacement` belongs to the slot. -/
def FrameSlot.Covers (slot : FrameSlot) (displacement : Int) : Prop :=
  -slot.offset ≤ displacement ∧ displacement < -slot.offset + slot.bytes

def FrameSlot.Disjoint (slot other : FrameSlot) : Prop :=
  ∀ displacement, slot.Covers displacement → ¬ other.Covers displacement

section Slots

variable (input : FrameInput) (frame : FrameLayout)

/-- A slot's distance from the frame pointer. -/
def localOffset (slot : LocalSlot) : Int := cInt (parameterHomeSize input + slot.top)

def frameBase : Int := returnBase input frame.localHomeSize frame.temps

def returnOffset (slot : ReturnSlot) : Int :=
  cInt (cInt (frameBase input frame + slot.below) + slot.bytes)

def savedOffset (index : Nat) : Int :=
  cInt (cInt (frameBase input frame + frame.indirectReturnTotal) +
    ((index + 1) * BINARY_FUNCTION_STACK_SLOT_SIZE : Nat))

def frameSlots : List FrameSlot :=
  (List.range (frame.parameterCount + hiddenReturnSlots input)).map
      (fun index => ⟨((index + 1) * BINARY_FUNCTION_STACK_SLOT_SIZE : Nat), 8⟩) ++
    (frame.locals.map (fun slot => ⟨localOffset input slot, localStorageSize slot.type⟩) ++
    ((List.range frame.temps.length).map
      (fun index => ⟨tempOffset (parameterHomeSize input) frame.localStorageTotal index, 8⟩) ++
    (frame.returnSlots.map (fun slot => ⟨returnOffset input frame slot, slot.bytes⟩) ++
    (List.range frame.savedRegisters.length).map
      (fun index => ⟨savedOffset input frame index, 8⟩))))

/-- The exact results of the `int` additions that place a local, a temporary, a struct return
or a saved register, and of the sum of the whole frame. -/
def frameSums : List Int :=
  frame.locals.map (fun slot => parameterHomeSize input + slot.top) ++
    ([parameterHomeSize input + frame.localStorageTotal] ++
    ((List.range frame.temps.length).map (fun index =>
      cInt (parameterHomeSize input + frame.localStorageTotal) +
        ((index + 1) * BINARY_FUNCTION_STACK_SLOT_SIZE : Nat)) ++
    (frame.returnSlots.flatMap (fun slot => [frameBase input frame + slot.below,
      cInt (frameBase input frame + slot.below) + slot.bytes, slot.below + slot.bytes]) ++
    ([frameBase input frame + frame.indirectReturnTotal,
      cInt (frameBase input frame + frame.indirectReturnTotal) +
        (frame.savedRegisters.length * BINARY_FUNCTION_STACK_SLOT_SIZE : Nat)] ++
    (List.range frame.savedRegisters.length).map (fun index =>
      cInt (frameBase input frame + frame.indirectReturnTotal) +
        ((index + 1) * BINARY_FUNCTION_STACK_SLOT_SIZE : Nat))))))

def declarationsOf (instructions : List IRInstruction) : List (String × LaidOutType) :=
  instructions.filterMap fun instruction =>
    if instruction.op = .declareLocal then
      match instruction.dest with
      | .symbol name => (declaredType input instruction).map (name, ·)
      | _ => none
    else none

/-- The slots of a frame are disjoint, large enough, inside the frame and aligned, and no sum
overflowed. -/
structure FrameSound : Prop where
  disjoint : (frameSlots input frame).Pairwise FrameSlot.Disjoint
  inside : ∀ slot ∈ frameSlots input frame,
    0 ≤ slot.offset - slot.bytes ∧ slot.offset ≤ frame.frameSize
  frame_aligned : 16 ∣ frame.frameSize
  declared : ∀ declaration ∈ declarationsOf input input.instructions, ∃ slot ∈ frame.locals,
    slot.name = declaration.1 ∧ declaration.2.size ≤ localStorageSize slot.type ∧
      ∀ rbp : Int, 16 ∣ rbp → (declaration.2.alignment : Int) ∣ rbp - localOffset input slot
  returned : List.Forall₂ (fun type slot => (codeGeneratorAbiTypeSize type : Int) ≤ slot.bytes)
    (indirectReturns input) frame.returnSlots
  exact : ∀ sum ∈ frameSums input frame, -2147483648 ≤ sum ∧ sum ≤ INT_MAX

end Slots

-- ---
-- The condition
-- ---

def storageBytes (type : LaidOutType) : Int :=
  if scalarLocal type then BINARY_FUNCTION_STACK_SLOT_SIZE else type.size

def alignUp (value alignment : Int) : Int :=
  if value % alignment = 0 then value else value + (alignment - value % alignment)

def localPlan : List (String × LaidOutType) → LocalState → LocalState
  | [], state => state
  | (name, type) :: rest, state =>
    if state.slots.any (fun slot => slot.name == name) then localPlan rest state
    else
      localPlan rest
        (state.extend name type (alignUp state.total (localAlignment type) + storageBytes type))

def collectTemps : List IRInstruction → List String → List String
  | [], temps => temps
  | instruction :: rest, temps =>
    match instruction.dest with
    | .temp name => if name ∈ temps then collectTemps rest temps
          else collectTemps rest (temps ++ [name])
    | _ => collectTemps rest temps

def returnBytes (type : ResolvedType) : Nat := (codeGeneratorAbiTypeSize type + 15) / 16 * 16

/-- The condition on the function: everything together is smaller than `INT_MAX`, and a name
declared again with another type fits the slot of its first declaration. -/
structure FrameFits (input : FrameInput) : Prop where
  total : parameterHomeSize input +
    alignUp (localPlan (declarationsOf input input.instructions) ⟨[], 0⟩).total 8 +
    ((collectTemps input.instructions []).length * 8 : Nat) +
    (((indirectReturns input).map returnBytes).sum : Nat) +
    (input.savedRegisters.length * 8 : Nat) ≤ INT_MAX
  reuse : ∀ declaration ∈ declarationsOf input input.instructions,
    ∀ slot ∈ (localPlan (declarationsOf input input.instructions) ⟨[], 0⟩).slots,
      slot.name = declaration.1 → declaration.2 = slot.type ∨
        (declaration.2.size ≤ storageBytes slot.type ∧
          (declaration.2.alignment : Int) ∣ parameterHomeSize input + slot.top)

-- ---
-- Slots one below the other
-- ---

/-- The slots lie one below the other, between the distances `low` and `high` below `rbp`. -/
def Stacked : Int → List FrameSlot → Int → Prop
  | low, [], high => low ≤ high
  | low, slot :: rest, high =>
    low ≤ slot.offset - slot.bytes ∧ 0 ≤ slot.bytes ∧ Stacked slot.offset rest high

variable {slots : List FrameSlot} {low high : Int}

theorem Stacked.le (h : Stacked low slots high) : low ≤ high := by
  induction slots generalizing low with
  | nil => exact h
  | cons slot rest ih =>
    have hRest := ih h.2.2
    have hLow := h.1
    have hBytes := h.2.1
    omega

theorem Stacked.mono {low' high' : Int} (h : Stacked low slots high) (hLow : low' ≤ low)
    (hHigh : high ≤ high') :
    Stacked low' slots high' := by
  induction slots generalizing low low' with
  | nil =>
    have hLe : low ≤ high := h
    show low' ≤ high'
    omega
  | cons slot rest ih => exact ⟨hLow.trans h.1, h.2.1, ih h.2.2 (le_refl _)⟩

theorem Stacked.append {below : List FrameSlot} {middle : Int} (h : Stacked low slots middle)
    (hBelow : Stacked middle below high) :
    Stacked low (slots ++ below) high := by
  induction slots generalizing low with
  | nil => exact hBelow.mono h (le_refl _)
  | cons slot rest ih => exact ⟨h.1, h.2.1, ih h.2.2⟩

theorem Stacked.inside (h : Stacked low slots high) :
    ∀ slot ∈ slots, low ≤ slot.offset - slot.bytes ∧ slot.offset ≤ high ∧ 0 ≤ slot.bytes := by
  induction slots generalizing low with
  | nil =>
    intro slot hMem
    cases hMem
  | cons first rest ih =>
    intro slot hMem
    have hLow := h.1
    have hBytes := h.2.1
    rcases mem_cons.mp hMem with rfl | hRest
    · exact ⟨hLow, h.2.2.le, hBytes⟩
    · have hInside := ih h.2.2 slot hRest
      exact ⟨by omega, hInside.2⟩

theorem Stacked.disjoint (h : Stacked low slots high) : slots.Pairwise FrameSlot.Disjoint := by
  induction slots generalizing low with
  | nil => exact List.Pairwise.nil
  | cons first rest ih =>
    refine List.Pairwise.cons ?_ (ih h.2.2)
    intro slot hMem displacement hFirst hOther
    -- a later slot ends at or below the offset of this one
    have hInside := (h.2.2.inside slot hMem).1
    have hLow := hFirst.1
    have hHigh := hOther.2
    omega

theorem Stacked.shift (h : Stacked low slots high) (distance : Int) :
    Stacked (distance + low) (slots.map fun slot => ⟨distance + slot.offset, slot.bytes⟩)
      (distance + high) := by
  induction slots generalizing low with
  | nil =>
    have hLe : low ≤ high := h
    show distance + low ≤ distance + high
    omega
  | cons first rest ih =>
    have hLow := h.1
    refine ⟨?_, h.2.1, ih h.2.2⟩
    show distance + low ≤ distance + first.offset - first.bytes
    omega

theorem stacked_words (low : Int) (count : Nat) : Stacked low ((List.range count).map fun index =>
      ⟨low + ((index + 1) * BINARY_FUNCTION_STACK_SLOT_SIZE : Nat), 8⟩)
      (low + (count * BINARY_FUNCTION_STACK_SLOT_SIZE : Nat)) := by
  induction count with
  | zero =>
    show low ≤ low + ((0 * BINARY_FUNCTION_STACK_SLOT_SIZE : Nat) : Int)
    omega
  | succ count ih =>
    rw [range_succ, map_append]
    refine ih.append ⟨?_, by show (0 : Int) ≤ 8; decide, le_refl _⟩
    show _ ≤ low + (((count + 1) * BINARY_FUNCTION_STACK_SLOT_SIZE : Nat) : Int) - 8
    unfold BINARY_FUNCTION_STACK_SLOT_SIZE
    omega

-- ---
-- The locals
-- ---

theorem binaryAlignUpInt_some {value alignment aligned : Int}
    (h : binaryAlignUpInt value alignment = some aligned) :
    0 ≤ value ∧ aligned = alignUp value alignment := by
  unfold binaryAlignUpInt at h
  dsimp only at h
  unfold alignUp
  split at h
  · cases h
  · rename_i hRange
    refine ⟨by omega, ?_⟩
    split at h
    · rename_i hZero
      rw [if_pos hZero]
      exact (Option.some.inj h).symm
    · rename_i hRest
      rw [if_neg hRest]
      split at h
      · cases h
      · exact (Option.some.inj h).symm

theorem le_alignUp (value : Int) {alignment : Int} (hPos : 0 < alignment) :
    value ≤ alignUp value alignment := by
  unfold alignUp
  have hLess := Int.emod_lt_of_pos value hPos
  split <;> omega

theorem dvd_alignUp (value : Int) (alignment : Int) : alignment ∣ alignUp value alignment := by
  unfold alignUp
  split
  · rename_i hZero
    exact Int.dvd_of_emod_eq_zero hZero
  · -- what is added completes the remainder
    have hSplit : value + (alignment - value % alignment) =
        alignment * (value / alignment) + alignment := by
      have hDiv := Int.emod_add_mul_ediv value alignment
      omega
    rw [hSplit]
    exact Int.dvd_add (Dvd.intro _ rfl) (dvd_refl _)

theorem localAlignment_pos (type : LaidOutType) : 0 < localAlignment type := by
  unfold localAlignment
  have hPos := type.alignment_pos
  split
  · decide
  · omega

/-- The declarations one after the other: what `prepareLocals` does with them. -/
def declareAll (functionName : String) (parameterHomeSize : Int) :
    List (String × LaidOutType) → LocalState → Except String LocalState
  | [], state => .ok state
  | (name, type) :: rest, state =>
    (declareLocal functionName parameterHomeSize name type state).bind
      (declareAll functionName parameterHomeSize rest)

theorem bind_eq_ok {ε α β : Type*} {x : Except ε α} {f : α → Except ε β} {b : β}
    (h : x.bind f = .ok b) : ∃ a, x = .ok a ∧ f a = .ok b := by
  cases x with
  | error e => cases h
  | ok a => exact ⟨a, rfl, h⟩

variable {homeSize : Int} {state state' : LocalState} {input : FrameInput}

theorem declareAll_of_prepareLocals {instructions : List IRInstruction}
    (h : prepareLocals input homeSize instructions state = .ok state') :
    declareAll input.functionName homeSize (declarationsOf input instructions) state =
      .ok state' := by
  induction instructions generalizing state with
  | nil => exact h
  | cons instruction rest ih =>
    rw [prepareLocals] at h
    unfold declarationsOf
    rw [filterMap_cons]
    by_cases hOp : instruction.op = .declareLocal
    · rw [if_pos hOp] at h ⊢
      split at h
      · rename_i name _
        split at h
        · cases h
        · split at h
          · cases h
          · rename_i type hType
            obtain ⟨middle, hDeclare, hRest⟩ := bind_eq_ok h
            rw [hType]
            show (declareLocal _ _ name type state).bind _ = _
            rw [hDeclare]
            exact ih hRest
      · cases h
    · rw [if_neg hOp] at h ⊢
      exact ih h

variable {functionName : String}

variable {type : LaidOutType}

theorem declareLocal_ok {name : String}
    (h : declareLocal functionName homeSize name type state = .ok state') :
    0 < localStorageSize type ∧
      ((state.slots.any (fun slot => slot.name == name) = true ∧ state' = state) ∨
        (state.slots.any (fun slot => slot.name == name) = false ∧ state' = state.extend name type
            (alignUp state.total (localAlignment type) + localStorageSize type))) := by
  unfold declareLocal at h
  split at h
  · cases h
  · rename_i hStorage
    refine ⟨by omega, ?_⟩
    split at h
    · rename_i hKnown
      exact Or.inl ⟨hKnown, (Except.ok.inj h).symm⟩
    · rename_i hNew
      refine Or.inr ⟨by simpa using hNew, ?_⟩
      split at h
      · cases h
      · rename_i aligned hAligned
        obtain ⟨-, rfl⟩ := binaryAlignUpInt_some hAligned
        split at h
        · cases h
        · split at h
          · cases h
          · split at h
            · cases h
            · exact (Except.ok.inj h).symm

def LocalState.raw (state : LocalState) : List FrameSlot :=
  state.slots.map fun slot => ⟨slot.top, localStorageSize slot.type⟩

variable (declarations : List (String × LaidOutType))

section

variable (h : declareAll functionName homeSize declarations state = .ok state')
include h

/-- **The locals lie one below the other.** -/
theorem declareAll_stacked (hState : Stacked 0 state.raw state.total) :
    Stacked 0 state'.raw state'.total := by
  induction declarations generalizing state with
  | nil =>
    cases h
    exact hState
  | cons declaration rest ih =>
    obtain ⟨middle, hDeclare, hRest⟩ := bind_eq_ok h
    refine ih hRest ?_
    obtain ⟨hStorage, ⟨-, rfl⟩ | ⟨-, rfl⟩⟩ := declareLocal_ok hDeclare
    · exact hState
    · unfold LocalState.raw LocalState.extend
      rw [map_append]
      refine Stacked.append hState ⟨?_, hStorage.le, le_refl _⟩
      have hLe := le_alignUp state.total (localAlignment_pos declaration.2)
      show state.total ≤ alignUp state.total (localAlignment declaration.2) +
        localStorageSize declaration.2 - localStorageSize declaration.2
      omega

theorem declareAll_slots : (∃ more, state'.slots = state.slots ++ more) ∧
      ∀ declaration ∈ declarations, ∃ slot ∈ state'.slots, slot.name = declaration.1 := by
  induction declarations generalizing state with
  | nil =>
    cases h
    refine ⟨⟨[], (append_nil _).symm⟩, ?_⟩
    intro declaration hMem
    cases hMem
  | cons first rest ih =>
    obtain ⟨middle, hDeclare, hRest⟩ := bind_eq_ok h
    obtain ⟨⟨more, hMore⟩, hNamed⟩ := ih hRest
    have hFirst : (∃ added, middle.slots = state.slots ++ added) ∧
        ∃ slot ∈ middle.slots, slot.name = first.1 := by
      obtain ⟨-, ⟨hKnown, rfl⟩ | ⟨-, rfl⟩⟩ := declareLocal_ok hDeclare
      · obtain ⟨slot, hMem, hName⟩ := any_eq_true.mp hKnown
        exact ⟨⟨[], (append_nil _).symm⟩, slot, hMem, beq_iff_eq.mp hName⟩
      · exact ⟨⟨_, rfl⟩, _, mem_append_right _ (mem_singleton_self _), rfl⟩
    obtain ⟨⟨added, hAdded⟩, slot, hSlot, hName⟩ := hFirst
    refine ⟨⟨added ++ more, by rw [hMore, hAdded, append_assoc]⟩, ?_⟩
    intro declaration hMem
    rcases mem_cons.mp hMem with rfl | hLater
    · exact ⟨slot, by rw [hMore]; exact mem_append_left _ hSlot, hName⟩
    · exact hNamed declaration hLater

theorem declareAll_eq_plan
    (hExact : ∀ slot ∈ state'.slots, localStorageSize slot.type = storageBytes slot.type) :
    state' = localPlan declarations state := by
  induction declarations generalizing state with
  | nil => exact (Except.ok.inj h).symm
  | cons declaration rest ih =>
    obtain ⟨name, type⟩ := declaration
    obtain ⟨middle, hDeclare, hRest⟩ := bind_eq_ok h
    rw [localPlan]
    obtain ⟨-, ⟨hKnown, rfl⟩ | ⟨hNew, rfl⟩⟩ := declareLocal_ok hDeclare
    · rw [if_pos hKnown]
      exact ih hRest
    · rw [if_neg (by rw [hNew]; exact Bool.false_ne_true)]
      have hSlot : localStorageSize type = storageBytes type := by
        obtain ⟨⟨more, hMore⟩, -⟩ := declareAll_slots rest hRest
        refine hExact ⟨name, type, alignUp state.total (localAlignment type) +
          localStorageSize type⟩ ?_
        rw [hMore]
        exact mem_append_left _ (mem_append_right _ (mem_singleton_self _))
      rw [hSlot] at hRest
      exact ih hRest

theorem declareAll_types {planned : LocalState}
    (hSame : state.slots.map (fun slot => (slot.name, slot.type)) = planned.slots.map fun slot =>
      (slot.name, slot.type)) :
    state'.slots.map (fun slot => (slot.name, slot.type)) =
      (localPlan declarations planned).slots.map fun slot => (slot.name, slot.type) := by
  induction declarations generalizing state planned with
  | nil =>
    cases h
    exact hSame
  | cons declaration rest ih =>
    obtain ⟨name, type⟩ := declaration
    obtain ⟨middle, hDeclare, hRest⟩ := bind_eq_ok h
    have hAny : state.slots.any (fun slot => slot.name == name) =
        planned.slots.any fun slot => slot.name == name := by
      have hNames := congrArg (fun entries => entries.any fun entry => entry.1 == name) hSame
      rw [any_map, any_map] at hNames
      exact hNames
    rw [localPlan]
    obtain ⟨-, ⟨hKnown, rfl⟩ | ⟨hNew, rfl⟩⟩ := declareLocal_ok hDeclare
    · rw [hAny] at hKnown
      rw [if_pos hKnown]
      exact ih hRest hSame
    · rw [hAny] at hNew
      rw [if_neg (by rw [hNew]; exact Bool.false_ne_true)]
      refine ih hRest ?_
      unfold LocalState.extend
      rw [map_append, map_append, hSame, map_singleton, map_singleton]

end

theorem scalarLocal_size (h : scalarLocal type = true) : type.size ≤ 8 := by
  unfold scalarLocal at h
  rw [Bool.or_eq_true] at h
  rcases h with hScalar | hDirect
  · unfold codeGeneratorBinaryResolvedTypeIsStackScalar at hScalar
    rw [Bool.and_eq_true, Bool.or_eq_true, Bool.and_eq_true, decide_eq_true_eq] at hScalar
    rcases hScalar.2 with hSupported | ⟨-, hFloat⟩
    · unfold codeGeneratorBinaryResolvedTypeIsSupported at hSupported
      split at hSupported
      all_goals first
        | exact of_decide_eq_true hSupported
        | cases hSupported
    · exact hFloat.le
  · unfold codeGeneratorBinaryTypeIsDirectAggregate at hDirect
    rw [Bool.and_eq_true, decide_eq_true_eq] at hDirect
    exact hDirect.2.2

theorem size_le_storageBytes (type : LaidOutType) : (type.size : Int) ≤ storageBytes type := by
  unfold storageBytes
  split
  · rename_i hScalar
    have hSize := scalarLocal_size hScalar
    unfold BINARY_FUNCTION_STACK_SLOT_SIZE
    omega
  · exact le_refl _

theorem localStorageSize_eq
    (h : (type.size : Int) ≤ localStorageSize type ∨ storageBytes type ≤ INT_MAX) :
    localStorageSize type = storageBytes type := by
  unfold localStorageSize storageBytes at *
  by_cases hScalar : scalarLocal type = true
  · rw [if_pos hScalar, if_pos hScalar]
  · rw [if_neg hScalar] at h ⊢
    rw [if_neg hScalar] at h ⊢
    have hRange : (type.size : Int) < 2147483648 := by
      rcases h with hHolds | hSmall
      · unfold cInt at hHolds
        rw [Int.bmod_def] at hHolds
        split at hHolds <;> omega
      · unfold INT_MAX at hSmall
        omega
    exact cInt_of_range (by omega) hRange

theorem storageBytes_nonneg (type : LaidOutType) : 0 ≤ storageBytes type := by
  have hSize := size_le_storageBytes type
  omega

theorem localPlan_le (state : LocalState) (hState : 0 ≤ state.total)
    (hSlots : ∀ slot ∈ state.slots, storageBytes slot.type ≤ state.total) :
    ∀ slot ∈ (localPlan declarations state).slots,
      storageBytes slot.type ≤ (localPlan declarations state).total := by
  induction declarations generalizing state with
  | nil => exact hSlots
  | cons declaration rest ih =>
    obtain ⟨name, type⟩ := declaration
    rw [localPlan]
    split
    · exact ih state hState hSlots
    · have hLe := le_alignUp state.total (localAlignment_pos type)
      have hStorage := storageBytes_nonneg type
      refine ih _ ?_ ?_
      · show 0 ≤ alignUp state.total (localAlignment type) + storageBytes type
        omega
      · intro slot hMem
        show storageBytes slot.type ≤ alignUp state.total (localAlignment type) + storageBytes type
        rcases mem_append.mp hMem with hOld | hNew
        · have hOldLe := hSlots slot hOld
          omega
        · obtain rfl := mem_singleton.mp hNew
          show storageBytes type ≤ _
          omega

theorem localPlan_aligned (state : LocalState)
    (hSlots : ∀ slot ∈ state.slots, (slot.type.alignment : Int) ∣ slot.top) :
    ∀ slot ∈ (localPlan declarations state).slots, (slot.type.alignment : Int) ∣ slot.top := by
  induction declarations generalizing state with
  | nil => exact hSlots
  | cons declaration rest ih =>
    obtain ⟨name, type⟩ := declaration
    rw [localPlan]
    split
    · exact ih state hSlots
    · refine ih _ ?_
      intro slot hMem
      rcases mem_append.mp hMem with hOld | hNew
      · exact hSlots slot hOld
      · obtain rfl := mem_singleton.mp hNew
        show (type.alignment : Int) ∣ alignUp state.total (localAlignment type) + storageBytes type
        have hEight : (type.alignment : Int) ∣ 8 := by exact_mod_cast type.alignment_dvd
        have hSize : (type.alignment : Int) ∣ type.size := by exact_mod_cast type.size_aligned
        have hAligned := dvd_alignUp state.total (localAlignment type)
        unfold localAlignment storageBytes at *
        by_cases hScalar : scalarLocal type = true
        · rw [if_pos hScalar] at *
          rw [if_pos hScalar]
          exact Int.dvd_add (hEight.trans hAligned) hEight
        · rw [if_neg hScalar] at *
          rw [if_neg hScalar]
          exact Int.dvd_add hAligned hSize

theorem localPlan_nodup (state : LocalState) (hState : (state.slots.map LocalSlot.name).Nodup) :
    ((localPlan declarations state).slots.map LocalSlot.name).Nodup := by
  induction declarations generalizing state with
  | nil => exact hState
  | cons declaration rest ih =>
    rw [localPlan]
    split
    · exact ih state hState
    · rename_i hNew
      refine ih _ ?_
      show ((state.slots ++ [_]).map LocalSlot.name).Nodup
      rw [map_append, map_singleton]
      refine List.Nodup.append hState (nodup_singleton _) ?_
      intro other hOther hName
      obtain rfl := mem_singleton.mp hName
      obtain ⟨slot, hSlot, hSlotName⟩ := mem_map.mp hOther
      exact hNew (any_eq_true.mpr ⟨slot, hSlot, beq_iff_eq.mpr hSlotName⟩)

-- ---
-- The temporaries and the struct returns
-- ---

theorem prepareTemps_ok {total : Int} (instructions : List IRInstruction)
    {temps temps' : List String}
    (h : prepareTemps functionName homeSize total instructions temps = .ok temps') :
    temps' = collectTemps instructions temps := by
  induction instructions generalizing temps with
  | nil => exact (Except.ok.inj h).symm
  | cons instruction rest ih =>
    rw [prepareTemps] at h
    rw [collectTemps]
    split at h
    · split at h
      · rename_i hKnown
        rw [if_pos hKnown]
        exact ih h
      · rename_i hNew
        rw [if_neg hNew]
        split at h
        · cases h
        · split at h
          · cases h
          · exact ih h
    · exact ih h

theorem returnSlotBytes_eq {type : ResolvedType}
    (h : (codeGeneratorAbiTypeSize type : Int) ≤ returnSlotBytes type ∨
      (returnBytes type : Int) ≤ INT_MAX) :
    returnSlotBytes type = returnBytes type := by
  unfold returnSlotBytes returnBytes at *
  generalize codeGeneratorAbiTypeSize type = size at *
  have hRange : (size + 15) / 16 * 16 < 2147483648 := by
    rcases h with hHolds | hSmall
    · unfold cInt at hHolds
      rw [Int.bmod_def] at hHolds
      split at hHolds <;> omega
    · unfold INT_MAX at hSmall
      omega
  rw [Nat.mod_eq_of_lt (by omega)]
  exact cInt_of_range (by omega) (by omega)

theorem prepareReturns_fits (types : List ResolvedType) (total : Int) (hTotal : 0 ≤ total)
    (hFits : total + ((types.map returnBytes).sum : Nat) ≤ INT_MAX) :
    (prepareReturns types total).2 = total + ((types.map returnBytes).sum : Nat) ∧
      List.Forall₂ (fun type slot => (codeGeneratorAbiTypeSize type : Int) ≤ slot.bytes) types
        (prepareReturns types total).1 ∧
      Stacked total ((prepareReturns types total).1.map fun slot =>
        ⟨slot.below + slot.bytes, slot.bytes⟩) (total + ((types.map returnBytes).sum : Nat)) ∧
      ∀ slot ∈ (prepareReturns types total).1, 0 ≤ slot.below ∧ 0 ≤ slot.bytes ∧
        slot.below + slot.bytes ≤ total + ((types.map returnBytes).sum : Nat) := by
  induction types generalizing total with
  | nil =>
    refine ⟨?_, List.Forall₂.nil, ?_, ?_⟩
    · show total = total + ((0 : Nat) : Int)
      omega
    · show total ≤ total + ((0 : Nat) : Int)
      omega
    · intro slot hMem
      cases hMem
  | cons type rest ih =>
    rw [map_cons, sum_cons, Int.natCast_add] at hFits ⊢
    have hBytes := returnSlotBytes_eq (Or.inr (by omega : (returnBytes type : Int) ≤ INT_MAX))
    have hNext : cInt (total + returnSlotBytes type) = total + returnBytes type := by
      rw [hBytes]
      unfold INT_MAX at hFits
      exact cInt_of_range (by omega) (by omega)
    rw [prepareReturns, hNext, hBytes]
    obtain ⟨hLast, hHolds, hStacked, hSlots⟩ := ih (total + returnBytes type) (by omega) (by omega)
    have hSize : codeGeneratorAbiTypeSize type ≤ returnBytes type := by
      unfold returnBytes
      omega
    refine ⟨by rw [hLast]; omega, List.Forall₂.cons (by dsimp only; omega) hHolds, ?_, ?_⟩
    · rw [map_cons]
      exact ⟨by dsimp only; omega, by dsimp only; omega, hStacked.mono (le_refl _) (by omega)⟩
    · intro slot hMem
      rcases mem_cons.mp hMem with rfl | hRest
      · dsimp only
        exact ⟨hTotal, by omega, by omega⟩
      · have hSlot := hSlots slot hRest
        exact ⟨hSlot.1, hSlot.2.1, by omega⟩

theorem prepareReturns_exact (types : List ResolvedType) (total : Int) (hTotal : 0 ≤ total)
    (hHolds : List.Forall₂ (fun type slot => (codeGeneratorAbiTypeSize type : Int) ≤ slot.bytes)
      types (prepareReturns types total).1)
    (hSums : ∀ slot ∈ (prepareReturns types total).1, slot.below + slot.bytes ≤ INT_MAX) :
    (prepareReturns types total).2 = total + ((types.map returnBytes).sum : Nat) := by
  induction types generalizing total with
  | nil =>
    show total = total + ((0 : Nat) : Int)
    omega
  | cons type rest ih =>
    rw [prepareReturns] at hHolds hSums ⊢
    rw [forall₂_cons] at hHolds
    dsimp only at hHolds
    have hBytes := returnSlotBytes_eq (Or.inl hHolds.1)
    rw [hBytes] at hSums
    have hSum := hSums ⟨total, returnBytes type⟩ mem_cons_self
    dsimp only at hSum
    have hNext : cInt (total + returnBytes type) = total + returnBytes type := by
      unfold INT_MAX at hSum
      exact cInt_of_range (by omega) (by omega)
    rw [hBytes] at hHolds ⊢
    rw [hNext] at hHolds hSums ⊢
    rw [ih (total + returnBytes type) (by omega) hHolds.2
      (fun slot hMem => hSums slot (mem_cons_of_mem _ hMem)), map_cons, sum_cons,
      Int.natCast_add]
    omega

theorem declareAll_origin (h : declareAll functionName homeSize declarations state = .ok state') :
    ∀ slot ∈ state'.slots, slot ∈ state.slots ∨ (slot.name, slot.type) ∈ declarations := by
  induction declarations generalizing state with
  | nil =>
    cases h
    exact fun slot hMem => Or.inl hMem
  | cons declaration rest ih =>
    obtain ⟨middle, hDeclare, hRest⟩ := bind_eq_ok h
    intro slot hMem
    rcases ih hRest slot hMem with hMiddle | hLater
    · obtain ⟨-, ⟨-, rfl⟩ | ⟨-, rfl⟩⟩ := declareLocal_ok hDeclare
      · exact Or.inl hMiddle
      · rcases mem_append.mp hMiddle with hOld | hNew
        · exact Or.inl hOld
        · obtain rfl := mem_singleton.mp hNew
          exact Or.inr mem_cons_self
    · exact Or.inr (mem_cons_of_mem _ hLater)

-- ---
-- The whole frame
-- ---

/-- What a successful preparation leaves behind. -/
structure Prepared (input : FrameInput) (frame : FrameLayout) (state : LocalState) : Prop where
  declare : declareAll input.functionName (parameterHomeSize input)
    (declarationsOf input input.instructions) ⟨[], 0⟩ = .ok state
  locals : frame.locals = state.slots
  total : frame.localStorageTotal = state.total
  home : frame.localHomeSize = alignUp state.total 8
  temps : frame.temps = collectTemps input.instructions []
  base : frameBase input frame ≤ INT_MAX
  returnSlots : frame.returnSlots = (prepareReturns (indirectReturns input) 0).1
  returnTotal : frame.indirectReturnTotal = (prepareReturns (indirectReturns input) 0).2
  saved : frame.savedRegisters = input.savedRegisters
  parameters : frame.parameterCount = input.parameterNames.length
  raw : frame.rawFrameSize = cInt (cInt (frameBase input frame + frame.indirectReturnTotal) +
    (frame.savedRegisters.length * BINARY_FUNCTION_STACK_SLOT_SIZE : Nat))
  size : frame.frameSize = alignUp frame.rawFrameSize 16

variable {frame : FrameLayout}

theorem prepared_of_ok (h : codeGeneratorBinaryPrepareFunctionContext input = .ok frame) :
    ∃ state, Prepared input frame state := by
  unfold codeGeneratorBinaryPrepareFunctionContext at h
  split at h
  · cases h
  · split at h
    · cases h
    · obtain ⟨state, hLocals, hRest⟩ := bind_eq_ok h
      obtain ⟨temps, hTemps, hRest⟩ := bind_eq_ok hRest
      split at hRest
      · cases hRest
      · rename_i localHomeSize hHome
        split at hRest
        · cases hRest
        · rename_i hRange
          dsimp only at hRest
          split at hRest
          · cases hRest
          · rename_i frameSize hSize
            cases hRest
            refine ⟨state, declareAll_of_prepareLocals hLocals, rfl, rfl,
              (binaryAlignUpInt_some hHome).2, prepareTemps_ok _ hTemps, ?_, rfl, rfl, rfl, rfl,
              rfl, (binaryAlignUpInt_some hSize).2⟩
            unfold frameBase returnBase
            dsimp only
            omega

section Soundness

variable {state : LocalState}

theorem cInt_of_le {x : Int} (hLo : 0 ≤ x) (hHi : x ≤ INT_MAX) : cInt x = x := by
  unfold INT_MAX at hHi
  exact cInt_of_range (by omega) (by omega)

theorem parameterHomeSize_nonneg (input : FrameInput) : 0 ≤ parameterHomeSize input := by
  unfold parameterHomeSize
  omega

section

variable (h : Prepared input frame state)
include h

theorem Prepared.stacked : Stacked 0 state.raw state.total :=
  declareAll_stacked _ h.declare (le_refl 0)

theorem Prepared.unique {slot other : LocalSlot} (hSlot : slot ∈ frame.locals)
    (hOther : other ∈ frame.locals) (hName : slot.name = other.name) :
    slot = other := by
  have hTypes := declareAll_types _ h.declare (rfl : (⟨[], 0⟩ : LocalState).slots.map _ = _)
  have hNames : state.slots.map LocalSlot.name =
      (localPlan (declarationsOf input input.instructions) ⟨[], 0⟩).slots.map LocalSlot.name := by
    have hFirst := congrArg (map Prod.fst) hTypes
    rw [map_map, map_map] at hFirst
    exact hFirst
  have hNodup : (state.slots.map LocalSlot.name).Nodup := by
    rw [hNames]
    exact localPlan_nodup _ _ nodup_nil
  rw [h.locals] at hSlot hOther
  exact inj_on_of_nodup_map hNodup hSlot hOther hName

theorem Prepared.frameBase_eq :
    frameBase input frame = parameterHomeSize input + alignUp state.total 8 +
      ((collectTemps input.instructions []).length * 8 : Nat) := by
  unfold frameBase returnBase
  rw [h.home, h.temps]
  rfl

theorem Prepared.frameSlots_stacked
    (hReturns : Stacked 0 (frame.returnSlots.map fun slot => ⟨slot.below + slot.bytes, slot.bytes⟩)
      frame.indirectReturnTotal)
    (hBelow : ∀ slot ∈ frame.returnSlots, 0 ≤ slot.below ∧ 0 ≤ slot.bytes ∧ slot.below + slot.bytes
      ≤ frame.indirectReturnTotal)
    (hTotal : frameBase input frame + frame.indirectReturnTotal + (frame.savedRegisters.length *
      BINARY_FUNCTION_STACK_SLOT_SIZE : Nat) ≤ INT_MAX) :
    Stacked 0 (frameSlots input frame) (frameBase input frame + frame.indirectReturnTotal +
      (frame.savedRegisters.length * BINARY_FUNCTION_STACK_SLOT_SIZE : Nat)) := by
  have hHome := parameterHomeSize_nonneg input
  have hStateNonneg := h.stacked.le
  have hRound := le_alignUp state.total (by decide : (0 : Int) < 8)
  have hBase := h.frameBase_eq
  have hReturnNonneg := hReturns.le
  have hTempEnd : parameterHomeSize input + state.total +
      ((frame.temps.length * BINARY_FUNCTION_STACK_SLOT_SIZE : Nat) : Int) ≤
      frameBase input frame := by
    rw [h.temps]
    unfold BINARY_FUNCTION_STACK_SLOT_SIZE
    omega
  -- the five regions one after the other
  have hParameters : Stacked 0 ((range (frame.parameterCount + hiddenReturnSlots input)).map
      fun index => ⟨((index + 1) * BINARY_FUNCTION_STACK_SLOT_SIZE : Nat), 8⟩)
      (parameterHomeSize input) := by
    have hWords := stacked_words 0 (frame.parameterCount + hiddenReturnSlots input)
    rw [zero_add, h.parameters] at hWords
    rw [h.parameters]
    refine Eq.mp ?_ hWords
    congr 2
    funext index
    rw [zero_add]
  have hLocals : Stacked (parameterHomeSize input) (frame.locals.map
      fun slot => ⟨localOffset input slot, localStorageSize slot.type⟩)
      (parameterHomeSize input + state.total) := by
    have hShifted := h.stacked.shift (parameterHomeSize input)
    refine Eq.mp ?_ hShifted
    rw [h.locals]
    unfold LocalState.raw
    rw [map_map]
    congr 1
    refine map_congr_left fun slot hMem => ?_
    have hInside := h.stacked.inside ⟨slot.top, localStorageSize slot.type⟩
      (mem_map.mpr ⟨slot, hMem, rfl⟩)
    dsimp only at hInside
    show (⟨parameterHomeSize input + slot.top, _⟩ : FrameSlot) = ⟨localOffset input slot, _⟩
    rw [localOffset, cInt_of_le (by omega) (by omega)]
  have hTemps : Stacked (parameterHomeSize input + state.total) ((range
      frame.temps.length).map fun index =>
        ⟨tempOffset (parameterHomeSize input) frame.localStorageTotal index, 8⟩)
      (frameBase input frame) := by
    have hWords := (stacked_words (parameterHomeSize input + state.total)
      frame.temps.length).mono (le_refl _) hTempEnd
    refine Eq.mp ?_ hWords
    congr 1
    refine map_congr_left fun index hMem => ?_
    have hIndex := mem_range.mp hMem
    unfold BINARY_FUNCTION_STACK_SLOT_SIZE at hTempEnd
    unfold tempOffset BINARY_FUNCTION_STACK_SLOT_SIZE
    rw [h.total, cInt_of_le (x := parameterHomeSize input + state.total) (by omega) (by omega),
      cInt_of_le (by omega) (by omega)]
  have hReturnSlots : Stacked (frameBase input frame) (frame.returnSlots.map
      fun slot => ⟨returnOffset input frame slot, slot.bytes⟩)
      (frameBase input frame + frame.indirectReturnTotal) := by
    have hShifted := hReturns.shift (frameBase input frame)
    rw [add_zero] at hShifted
    refine Eq.mp ?_ hShifted
    rw [map_map]
    congr 1
    refine map_congr_left fun slot hMem => ?_
    obtain ⟨hLow, hBytes, hHigh⟩ := hBelow slot hMem
    show (⟨frameBase input frame + (slot.below + slot.bytes), _⟩ : FrameSlot) =
      ⟨returnOffset input frame slot, _⟩
    rw [returnOffset, cInt_of_le (x := frameBase input frame + slot.below) (by omega) (by omega),
      cInt_of_le (by omega) (by omega), add_assoc]
  have hSaved : Stacked (frameBase input frame + frame.indirectReturnTotal) ((range
      frame.savedRegisters.length).map fun index => ⟨savedOffset input frame index, 8⟩)
      (frameBase input frame + frame.indirectReturnTotal +
        (frame.savedRegisters.length * BINARY_FUNCTION_STACK_SLOT_SIZE : Nat)) := by
    have hWords := stacked_words (frameBase input frame + frame.indirectReturnTotal)
      frame.savedRegisters.length
    refine Eq.mp ?_ hWords
    congr 1
    refine map_congr_left fun index hMem => ?_
    have hIndex := mem_range.mp hMem
    unfold BINARY_FUNCTION_STACK_SLOT_SIZE at hTotal
    unfold savedOffset BINARY_FUNCTION_STACK_SLOT_SIZE
    rw [cInt_of_le (x := frameBase input frame + frame.indirectReturnTotal) (by omega) (by omega),
      cInt_of_le (by omega) (by omega)]
  exact hParameters.append (hLocals.append (hTemps.append (hReturnSlots.append hSaved)))

theorem Prepared.frameSums_exact (hReturnNonneg : 0 ≤ frame.indirectReturnTotal)
    (hBelow : ∀ slot ∈ frame.returnSlots, 0 ≤ slot.below ∧ 0 ≤ slot.bytes ∧ slot.below + slot.bytes
      ≤ frame.indirectReturnTotal)
    (hTotal : frameBase input frame + frame.indirectReturnTotal + (frame.savedRegisters.length *
      BINARY_FUNCTION_STACK_SLOT_SIZE : Nat) ≤ INT_MAX) :
    ∀ sum ∈ frameSums input frame, -2147483648 ≤ sum ∧ sum ≤ INT_MAX := by
  have hHome := parameterHomeSize_nonneg input
  have hStateNonneg := h.stacked.le
  have hRound := le_alignUp state.total (by decide : (0 : Int) < 8)
  have hBase := h.frameBase_eq
  rw [← h.temps] at hBase
  unfold BINARY_FUNCTION_STACK_SLOT_SIZE at hTotal
  have hLocalSum := cInt_of_le (x := parameterHomeSize input + state.total) (by omega) (by omega)
  have hReturnSum := cInt_of_le (x := frameBase input frame + frame.indirectReturnTotal)
    (by omega) (by omega)
  intro sum hMem
  unfold frameSums BINARY_FUNCTION_STACK_SLOT_SIZE at hMem
  rw [h.locals, h.total, hLocalSum, hReturnSum] at hMem
  rcases mem_append.mp hMem with hLocal | hMem
  · obtain ⟨slot, hSlot, rfl⟩ := mem_map.mp hLocal
    have hInside := h.stacked.inside ⟨slot.top, localStorageSize slot.type⟩
      (mem_map.mpr ⟨slot, hSlot, rfl⟩)
    dsimp only at hInside
    omega
  rcases mem_append.mp hMem with hStart | hMem
  · obtain rfl := mem_singleton.mp hStart
    omega
  rcases mem_append.mp hMem with hTemp | hMem
  · obtain ⟨index, hIndex, rfl⟩ := mem_map.mp hTemp
    have hLess := mem_range.mp hIndex
    omega
  rcases mem_append.mp hMem with hReturn | hMem
  · obtain ⟨slot, hSlot, hIn⟩ := mem_flatMap.mp hReturn
    obtain ⟨hLow, hBytes, hHigh⟩ := hBelow slot hSlot
    rw [cInt_of_le (x := frameBase input frame + slot.below) (by omega) (by omega)] at hIn
    simp only [mem_cons, not_mem_nil, or_false] at hIn
    rcases hIn with rfl | rfl | rfl <;> omega
  rcases mem_append.mp hMem with hEnd | hSaved
  · simp only [mem_cons, not_mem_nil, or_false] at hEnd
    rcases hEnd with rfl | rfl <;> omega
  · obtain ⟨index, hIndex, rfl⟩ := mem_map.mp hSaved
    have hLess := mem_range.mp hIndex
    omega

end

theorem dvd_sub_of_rbp {alignment : Nat} (hAlignment : alignment ∣ 8) {offset : Int}
    (hOffset : (alignment : Int) ∣ offset) (rbp : Int) (hRbp : 16 ∣ rbp) :
    (alignment : Int) ∣ rbp - offset := by
  have hEight : (alignment : Int) ∣ 8 := by exact_mod_cast hAlignment
  exact Int.dvd_sub ((hEight.trans (by decide : (8 : Int) ∣ 16)).trans hRbp) hOffset

theorem dvd_parameterHomeSize (type : LaidOutType) (input : FrameInput) :
    (type.alignment : Int) ∣ parameterHomeSize input := by
  unfold parameterHomeSize BINARY_FUNCTION_STACK_SLOT_SIZE
  exact_mod_cast type.alignment_dvd.trans (Dvd.intro_left _ rfl)

theorem Prepared.sound (h : Prepared input frame state) (hFits : FrameFits input) :
    FrameSound input frame := by
  have hHome := parameterHomeSize_nonneg input
  have hTotal := hFits.total
  -- no size is cut off, so the locals are where the plan puts them
  have hPlanNonneg : ∀ slot ∈ (localPlan (declarationsOf input input.instructions) ⟨[], 0⟩).slots,
      storageBytes slot.type ≤ INT_MAX := by
    intro slot hMem
    have hLe := localPlan_le (declarationsOf input input.instructions) ⟨[], 0⟩ (le_refl 0)
      (fun slot hMem => (by cases hMem)) slot hMem
    have hRound := le_alignUp (localPlan (declarationsOf input input.instructions) ⟨[], 0⟩).total
      (by decide : (0 : Int) < 8)
    omega
  have hTypes := declareAll_types _ h.declare (rfl : (⟨[], 0⟩ : LocalState).slots.map _ = _)
  have hExact : ∀ slot ∈ state.slots, localStorageSize slot.type = storageBytes slot.type := by
    intro slot hMem
    have hPair : (slot.name, slot.type) ∈
        (localPlan (declarationsOf input input.instructions) ⟨[], 0⟩).slots.map
          fun slot => (slot.name, slot.type) := by
      rw [← hTypes]
      exact mem_map.mpr ⟨slot, hMem, rfl⟩
    obtain ⟨planned, hPlanned, hEq⟩ := mem_map.mp hPair
    have hSmall := hPlanNonneg planned hPlanned
    rw [(Prod.mk.inj hEq).2] at hSmall
    exact localStorageSize_eq (Or.inr hSmall)
  have hPlan := declareAll_eq_plan _ h.declare hExact
  rw [← hPlan] at hTotal
  have hBase := h.frameBase_eq
  have hStateNonneg := h.stacked.le
  have hRound := le_alignUp state.total (by decide : (0 : Int) < 8)
  obtain ⟨hLast, hHolds, hStacked, hBelow⟩ := prepareReturns_fits (indirectReturns input) 0
    (le_refl 0) (by omega)
  rw [← h.returnTotal] at hLast
  rw [← h.returnSlots] at hHolds hStacked hBelow
  rw [← hLast] at hStacked hBelow
  have hSum : frameBase input frame + frame.indirectReturnTotal +
      (frame.savedRegisters.length * BINARY_FUNCTION_STACK_SLOT_SIZE : Nat) ≤ INT_MAX := by
    rw [h.saved]
    unfold BINARY_FUNCTION_STACK_SLOT_SIZE
    omega
  have hSlots := h.frameSlots_stacked hStacked hBelow hSum
  have hReturnNonneg := hStacked.le
  have hRaw : frame.rawFrameSize = frameBase input frame + frame.indirectReturnTotal +
      (frame.savedRegisters.length * BINARY_FUNCTION_STACK_SLOT_SIZE : Nat) := by
    rw [h.raw, cInt_of_le (x := frameBase input frame + frame.indirectReturnTotal) (by omega)
      (by omega), cInt_of_le (by omega) hSum]
  refine ⟨hSlots.disjoint, ?_, ?_, ?_, hHolds, h.frameSums_exact hReturnNonneg hBelow hSum⟩
  · intro slot hMem
    have hInside := hSlots.inside slot hMem
    have hSize := le_alignUp frame.rawFrameSize (by decide : (0 : Int) < 16)
    rw [h.size]
    omega
  · rw [h.size]
    exact dvd_alignUp _ 16
  · intro declaration hMem
    obtain ⟨slot, hSlot, hName⟩ := (declareAll_slots _ h.declare).2 declaration hMem
    have hInside := h.stacked.inside ⟨slot.top, localStorageSize slot.type⟩
      (mem_map.mpr ⟨slot, hSlot, rfl⟩)
    dsimp only at hInside
    have hOffset : localOffset input slot = parameterHomeSize input + slot.top := by
      rw [localOffset, cInt_of_le (by omega) (by omega)]
    refine ⟨slot, by rw [h.locals]; exact hSlot, hName, ?_⟩
    rw [hOffset, hExact slot hSlot]
    rw [hPlan] at hSlot
    rcases hFits.reuse declaration hMem slot hSlot hName with hSame | ⟨hSize, hAligned⟩
    · -- the slot was made for this very type
      rw [hSame]
      refine ⟨size_le_storageBytes slot.type, dvd_sub_of_rbp slot.type.alignment_dvd ?_⟩
      exact Int.dvd_add (dvd_parameterHomeSize slot.type input)
        (localPlan_aligned _ ⟨[], 0⟩ (fun slot hMem => (by cases hMem)) slot hSlot)
    · exact ⟨hSize, dvd_sub_of_rbp declaration.2.alignment_dvd hAligned⟩

theorem Prepared.fits (h : Prepared input frame state) (hSound : FrameSound input frame) :
    FrameFits input := by
  have hHome := parameterHomeSize_nonneg input
  -- every slot holds the type it was made for, so no size was cut off
  have hExact : ∀ slot ∈ state.slots, localStorageSize slot.type = storageBytes slot.type := by
    intro slot hMem
    rcases declareAll_origin _ h.declare slot hMem with hOld | hDeclared
    · cases hOld
    · obtain ⟨other, hOther, hName, hSize, -⟩ := hSound.declared _ hDeclared
      have hSame : slot = other := h.unique (by rw [h.locals]; exact hMem) hOther hName.symm
      rw [← hSame] at hSize
      exact localStorageSize_eq (Or.inl hSize)
  have hPlan := declareAll_eq_plan _ h.declare hExact
  have hSums := hSound.exact
  unfold frameSums BINARY_FUNCTION_STACK_SLOT_SIZE at hSums
  simp only [forall_mem_append] at hSums
  obtain ⟨hLocals, -, -, hReturns, hEnd, -⟩ := hSums
  have hReturnTotal : frame.indirectReturnTotal =
      (((indirectReturns input).map returnBytes).sum : Nat) := by
    have hHolds := hSound.returned
    rw [h.returnSlots] at hHolds hReturns
    rw [h.returnTotal, prepareReturns_exact (indirectReturns input) 0 (le_refl 0) hHolds, zero_add]
    intro slot hMem
    refine (hReturns (slot.below + slot.bytes) ?_).2
    rw [mem_flatMap]
    exact ⟨slot, hMem, by simp⟩
  have hBase := h.frameBase_eq
  have hStateNonneg := h.stacked.le
  have hRound := le_alignUp state.total (by decide : (0 : Int) < 8)
  have hReturnSum := (hEnd _ mem_cons_self).2
  have hFinal := (hEnd _ (mem_cons_of_mem _ mem_cons_self)).2
  rw [cInt_of_le (by omega) hReturnSum, h.saved] at hFinal
  refine ⟨?_, ?_⟩
  · rw [← hPlan]
    omega
  · intro declaration hMem slot hSlot hName
    rw [← hPlan, ← h.locals] at hSlot
    obtain ⟨other, hOther, hOtherName, hSize, hAligned⟩ := hSound.declared declaration hMem
    obtain rfl := h.unique hSlot hOther (hName.trans hOtherName.symm)
    have hStateSlot := hSlot
    rw [h.locals] at hStateSlot
    have hInside := h.stacked.inside ⟨slot.top, localStorageSize slot.type⟩
      (mem_map.mpr ⟨slot, hStateSlot, rfl⟩)
    dsimp only at hInside
    have hOffset : localOffset input slot = parameterHomeSize input + slot.top := by
      rw [localOffset, cInt_of_le (by omega) (hLocals _ (mem_map.mpr ⟨slot, hSlot, rfl⟩)).2]
    have hZero := hAligned 0 (dvd_zero 16)
    rw [hOffset, zero_sub, Int.dvd_neg] at hZero
    rw [hExact slot hStateSlot] at hSize
    exact Or.inr ⟨hSize, hZero⟩

end Soundness

/-- **When the slots are sound.** For every function whose context the code generator
prepares: the slots are disjoint, inside the frame, aligned and as large as what they hold,
and no sum overflowed, if and only if the bytes of the frame together are at most `INT_MAX`
and every redeclared name fits the slot of its first declaration. -/
theorem frameSound_iff {input : FrameInput} {frame : FrameLayout}
    (h : codeGeneratorBinaryPrepareFunctionContext input = .ok frame) :
    FrameSound input frame ↔ FrameFits input := by
  obtain ⟨state, hPrepared⟩ := prepared_of_ok h
  exact ⟨hPrepared.fits, hPrepared.sound⟩

def int32Type : LaidOutType := typeCreate .int32 4 (by decide)

def pairType : LaidOutType :=
  typeCreateStruct [typeCreate .int64 8 (by decide), typeCreate .int64 8 (by decide)]

def exampleTypes (name : String) : Option LaidOutType :=
  if name = "int32" then some int32Type else if name = "Pair" then some pairType else none

def pairFunction : FrameInput :=
  { functionName := "f", parameterNames := ["n"], returnType := none
    instructions := [{ op := .declareLocal, dest := .symbol "x", text := some "int32" },
      { op := .declareLocal, dest := .symbol "p", text := some "Pair" },
      { op := .call, dest := .temp "t0", text := some "makePair" }]
    typeByName := exampleTypes
    returnTypeOf := fun name => if name = "makePair" then some pairType.resolved else none
    savedRegisters := [.r12] }

theorem frameSound_pairFunction :
    ∃ frame, codeGeneratorBinaryPrepareFunctionContext pairFunction = .ok frame ∧
      FrameSound pairFunction frame := by
  have hOk : codeGeneratorBinaryPrepareFunctionContext pairFunction = .ok
      { hiddenReturn := false, parameterCount := 1
        locals := [⟨"x", int32Type, 8⟩, ⟨"p", pairType, 24⟩], localStorageTotal := 24
        localHomeSize := 24, temps := ["t0"], returnSlots := [⟨0, 16⟩], indirectReturnTotal := 16
        savedRegisters := [.r12], rawFrameSize := 64, frameSize := 64 } := by
    decide +kernel
  exact ⟨_, hOk, (frameSound_iff hOk).mpr ⟨by decide, by decide⟩⟩

/-- Two blocks that each declare `x`, first as an integer and then as a struct. -/
def redeclaringFunction : FrameInput :=
  { pairFunction with
    instructions := [{ op := .declareLocal, dest := .symbol "x", text := some "int32" },
      { op := .declareLocal, dest := .symbol "x", text := some "Pair" }] }

/-- The sixteen-byte struct keeps the eight bytes of the integer. -/
theorem redeclared_not_frameSound : ¬ ∀ (input : FrameInput) (frame : FrameLayout),
      codeGeneratorBinaryPrepareFunctionContext input = .ok frame → FrameSound input frame := by
  intro hClaim
  have hOk : codeGeneratorBinaryPrepareFunctionContext redeclaringFunction = .ok
      { hiddenReturn := false, parameterCount := 1, locals := [⟨"x", int32Type, 8⟩]
        localStorageTotal := 8, localHomeSize := 8, temps := [], returnSlots := []
        indirectReturnTotal := 0, savedRegisters := [.r12], rawFrameSize := 24
        frameSize := 32 } := by
    decide
  obtain ⟨slot, hSlot, -, hSize, -⟩ := (hClaim _ _ hOk).declared ("x", pairType) (by decide)
  obtain rfl := mem_singleton.mp hSlot
  exact absurd hSize (by decide)

end Mettle.Codegen
