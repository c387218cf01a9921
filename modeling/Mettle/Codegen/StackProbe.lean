import Mettle.Codegen.CallAgreement

/-!
# Mettle — how far the stack pointer moves between two touches

Windows commits the stack one guard page at a time: the page below the last one touched
must be touched before `rsp` goes past it. `binary_emit_frame_allocation` therefore lowers
`rsp` page by page and reads each page it steps on. A frame of at most one page is not
probed, and neither is the window that `code_generator_binary_emit_call` reserves for the
copies of by-value structs, the shadow space and the stack arguments: one `sub rsp`,
whatever its size.

The generated code is modelled by what it does to the stack: the events of the prologue,
of a call and of the epilogue, strung together along a run with any nesting of calls. What
a function outside the program does below its return address is not the compiler's, and
inline assembly is left out.
-/

namespace Mettle.Codegen

open List

-- ---
-- Touches
-- ---

def BINARY_STACK_PAGE_SIZE : Nat := 4096

/-- What moves or touches the stack. -/
inductive StackEvent
  | descend (bytes : Nat)
  | ascend (bytes : Nat)
  | touch
  deriving DecidableEq

/-- The stack pointer, and the highest value it has had since the last touch. -/
structure StackView where
  rsp : Int
  high : Int
  deriving DecidableEq

/-- The stack right after it was touched at `rsp`. -/
def StackView.touched (rsp : Int) : StackView := ⟨rsp, rsp⟩

def StackView.after (view : StackView) : StackEvent → StackView
  | .descend bytes => { view with rsp := view.rsp - bytes }
  | .ascend bytes => ⟨view.rsp + bytes, max view.high (view.rsp + bytes)⟩
  | .touch => .touched view.rsp

def StackView.untouched (view : StackView) : Int := view.high - view.rsp

def StackView.afterAll (view : StackView) (events : List StackEvent) : StackView :=
  events.foldl StackView.after view

/-- At every touch, the stack pointer is at most one page below where it has been since the
touch before. -/
def Steady : StackView → List StackEvent → Prop
  | _, [] => True
  | view, event :: rest =>
    (event = .touch → view.untouched ≤ BINARY_STACK_PAGE_SIZE) ∧ Steady (view.after event) rest

theorem steady_append (events later : List StackEvent) (view : StackView) :
    Steady view (events ++ later) ↔ Steady view events ∧ Steady (view.afterAll events) later := by
  induction events generalizing view with
  | nil =>
    show Steady view later ↔ True ∧ Steady view later
    rw [true_and]
  | cons event rest ih =>
    show _ ∧ Steady (view.after event) (rest ++ later) ↔
      (_ ∧ Steady (view.after event) rest) ∧ Steady ((view.after event).afterAll rest) later
    rw [ih, and_assoc]

theorem afterAll_append (view : StackView) (events later : List StackEvent) :
    view.afterAll (events ++ later) = (view.afterAll events).afterAll later :=
  foldl_append

@[simp] theorem untouched_touched (rsp : Int) : (StackView.touched rsp).untouched = 0 :=
  sub_self rsp

theorem steady_touches (count : Nat) (rsp : Int) :
    Steady (.touched rsp) (List.replicate count .touch) ∧
      (StackView.touched rsp).afterAll (List.replicate count .touch) = .touched rsp := by
  induction count with
  | zero => exact ⟨trivial, rfl⟩
  | succ count ih =>
    refine ⟨⟨fun _ => ?_, ih.1⟩, ih.2⟩
    rw [untouched_touched]
    decide

-- ---
-- The prologue
-- ---

/-- Descends page by page and touches each. -/
def probeLoop (remaining : Nat) : List StackEvent :=
  if remaining > BINARY_STACK_PAGE_SIZE then
    .descend BINARY_STACK_PAGE_SIZE :: .touch :: probeLoop (remaining - BINARY_STACK_PAGE_SIZE)
  else
    [.descend remaining, .touch]
termination_by remaining
decreasing_by
  unfold BINARY_STACK_PAGE_SIZE at *
  omega

/-- The frame, probed from one page on. -/
def binaryEmitFrameAllocation (frameSize : Int) : List StackEvent :=
  if frameSize ≤ 0 then []
  else if frameSize ≤ BINARY_STACK_PAGE_SIZE then [.descend frameSize.toNat]
  else probeLoop frameSize.toNat

/-- What the prologue needs of the function context: the frame, the callee-saved registers
it stores, whether it homes the hidden return pointer, and how many parameters it stores
into their slots (the others are moved into registers). -/
structure FrameContext where
  frameSize : Int
  savedRegisterCount : Nat
  returnsIndirect : Bool
  homedParameters : Nat
  deriving DecidableEq

def FrameContext.stores (context : FrameContext) : Nat :=
  context.savedRegisterCount + context.returnsIndirect.toNat + context.homedParameters

/-- `push rbp`, the allocation, and the stores into the new frame. -/
def prologueEvents (context : FrameContext) : List StackEvent :=
  [.descend 8, .touch] ++ (binaryEmitFrameAllocation context.frameSize ++
    List.replicate context.stores .touch)

/-- `mov rsp, rbp; pop rbp; ret`. -/
def epilogueEvents (context : FrameContext) : List StackEvent :=
  [.ascend context.frameSize.toNat, .ascend 8, .ascend 8]

-- ---
-- Calls
-- ---

inductive CallSite
  | named (signature : FunctionSignature)
  | throughPointer (parameterTypes : List (Option ResolvedType))
  deriving DecidableEq

/-- `code_generator_binary_emit_call_indirect`: no struct is copied and no hidden pointer is
passed. -/
def codeGeneratorBinaryEmitCallIndirect (abi : BinaryAbi) (functionName : String)
    (parameterTypes : List (Option ResolvedType)) : Except String CallPlan :=
  let layout := codeGeneratorBinaryComputeArgLayout abi
    (parameterTypes.map fun type => codeGeneratorBinaryResolvedTypeFloatBits type != 0)
  if (layout.2 : Int) > INT_MAX - 64 then
    .error s!"Too many indirect call arguments in function '{functionName}'"
  else
    match binaryAlignUpInt (cInt (abi.shadowSpaceSize + layout.2)) 16 with
    | none => .error s!"Indirect call frame too large in function '{functionName}'"
    | some callStackTotal =>
      .ok { arguments := layout.1.map (BinaryArgLocation.place abi.shadowSpaceSize)
            hiddenReturn := none, copies := [], callStackTotal }

def CallSite.emit (abi : BinaryAbi) (functionName : String) : CallSite → Except String CallPlan
  | .named signature => codeGeneratorBinaryEmitCall abi functionName signature
  | .throughPointer parameterTypes =>
    codeGeneratorBinaryEmitCallIndirect abi functionName parameterTypes

def ArgPlace.isMemory : ArgPlace → Bool
  | .memory _ => true
  | _ => false

def CallPlan.windowEvents (plan : CallPlan) : List StackEvent :=
  (if plan.callStackTotal > 0 then [.descend plan.callStackTotal.toNat] else []) ++
    List.replicate (plan.copies.length + plan.arguments.countP ArgPlace.isMemory) .touch

/-- `call` pushes the return address. -/
def callEvents : List StackEvent := [.descend 8, .touch]

/-- `add rsp` behind the call. -/
def CallPlan.releaseEvents (plan : CallPlan) : List StackEvent :=
  if plan.callStackTotal > 0 then [.ascend plan.callStackTotal.toNat] else []

/-- A call that the code generator accepted. -/
structure EmittedCall where
  abi : BinaryAbi
  functionName : String
  site : CallSite
  plan : CallPlan
  emitted : site.emit abi functionName = .ok plan

/-- The sequences with a window of fixed size: the calls of the C library and the profiler,
the runtime trap, the string concatenation, and the inline copies that save registers by
pushing them. -/
inductive RuntimeSequence
  | libraryCall
  | profileExit
  | trap
  | stringConcat
  | pushedCopy
  | pushedFill
  deriving DecidableEq

def RuntimeSequence.events : RuntimeSequence → List StackEvent
  | .libraryCall => [.descend 32, .descend 8, .touch, .ascend 8, .ascend 32]
  | .profileExit => [.descend 8, .touch, .descend 32, .descend 8, .touch, .ascend 8, .ascend 32,
      .ascend 8]
  | .trap => [.descend 48, .touch, .touch, .descend 8, .touch, .ascend 8, .ascend 48]
  | .stringConcat => [.descend 8, .touch, .ascend 8, .descend 24, .touch, .touch, .touch,
      .descend 40, .descend 8, .touch, .ascend 8, .ascend 40, .ascend 24]
  | .pushedCopy => [.descend 8, .touch, .descend 8, .touch, .ascend 8, .ascend 8]
  | .pushedFill => [.descend 8, .touch, .ascend 8]

def RuntimeSequence.reach : RuntimeSequence → Nat
  | .libraryCall => 40
  | .trap => 48
  | .profileExit | .stringConcat | .pushedCopy | .pushedFill => 8

-- ---
-- Runs
-- ---

/-- What a run does next: store into the current frame, call a compiled function and run its
prologue, call a function outside the program, execute a fixed sequence, or return. -/
inductive StackAction
  | write
  | call (made : EmittedCall) (callee : FrameContext)
  | callExternal (made : EmittedCall)
  | runtime (sequence : RuntimeSequence)
  | leave

abbrev Activations := List (FrameContext × Option CallPlan)

def StackAction.events (activations : Activations) : StackAction → List StackEvent
  | .write => [.touch]
  | .call made callee => (made.plan.windowEvents ++ callEvents) ++ prologueEvents callee
  | .callExternal made =>
    (made.plan.windowEvents ++ callEvents) ++ (.ascend 8 :: made.plan.releaseEvents)
  | .runtime sequence => sequence.events
  | .leave =>
    match activations with
    | [] => []
    | (context, window) :: _ =>
      epilogueEvents context ++ (window.map CallPlan.releaseEvents).getD []

def StackAction.next (activations : Activations) : StackAction → Activations
  | .call made callee => (callee, some made.plan) :: activations
  | .leave => activations.tail
  | _ => activations

def runEvents : Activations → List StackAction → List StackEvent
  | _, [] => []
  | activations, action :: rest =>
    action.events activations ++ runEvents (action.next activations) rest

def runOf (context : FrameContext) (actions : List StackAction) : List StackEvent :=
  prologueEvents context ++ runEvents [(context, none)] actions

-- ---
-- The condition
-- ---

def roundUp16 (bytes : Nat) : Nat := (bytes + 15) / 16 * 16

def CallSite.locations (abi : BinaryAbi) : CallSite → List BinaryArgLocation
  | .named signature => userLocations abi signature
  | .throughPointer parameterTypes => (codeGeneratorBinaryComputeArgLayout abi
      (parameterTypes.map fun type => codeGeneratorBinaryResolvedTypeFloatBits type != 0)).1

def CallSite.stackBytes (abi : BinaryAbi) : CallSite → Nat
  | .named signature => (codeGeneratorBinaryComputeArgLayout abi (callIsFloat signature)).2
  | .throughPointer parameterTypes => (codeGeneratorBinaryComputeArgLayout abi
      (parameterTypes.map fun type => codeGeneratorBinaryResolvedTypeFloatBits type != 0)).2

def CallSite.structBytes : CallSite → Nat
  | .named signature => Codegen.structBytes signature.parameterTypes
  | .throughPointer _ => 0

def CallSite.windowBytes (abi : BinaryAbi) (site : CallSite) : Nat :=
  roundUp16 (roundUp16 site.structBytes + abi.shadowSpaceSize + site.stackBytes abi)

def BinaryArgLocation.isStack : BinaryArgLocation → Bool
  | .onStack _ => true
  | _ => false

def CallSite.writesWindow (abi : BinaryAbi) (site : CallSite) : Bool :=
  decide (0 < site.structBytes) || (site.locations abi).any BinaryArgLocation.isStack

def EmittedCall.reach (call : EmittedCall) : Nat :=
  call.site.windowBytes call.abi + if call.site.writesWindow call.abi then 0 else 8

def StackAction.Fits (view : StackView) : StackAction → Prop
  | .call made _ => view.untouched + made.reach ≤ BINARY_STACK_PAGE_SIZE
  | .callExternal made => view.untouched + made.reach ≤ BINARY_STACK_PAGE_SIZE
  | .runtime sequence => view.untouched + sequence.reach ≤ BINARY_STACK_PAGE_SIZE
  | .write | .leave => True

def CallsFit : StackView → Activations → List StackAction → Prop
  | _, _, [] => True
  | view, activations, action :: rest =>
    action.Fits view ∧
      CallsFit (view.afterAll (action.events activations)) (action.next activations) rest

-- ---
-- What one action does
-- ---

/-- What is reserved and untouched is at most a page. -/
def StackView.Bounded (view : StackView) : Prop :=
  0 ≤ view.untouched ∧ view.untouched ≤ BINARY_STACK_PAGE_SIZE

theorem bounded_touched (rsp : Int) : (StackView.touched rsp).Bounded := by
  unfold StackView.Bounded
  rw [untouched_touched]
  decide

theorem steady_descend_touch (view : StackView) (bytes : Nat)
    (hRoom : view.untouched + bytes ≤ BINARY_STACK_PAGE_SIZE) :
    Steady view [.descend bytes, .touch] ∧
      view.afterAll [.descend bytes, .touch] = .touched (view.rsp - bytes) := by
  refine ⟨⟨fun h => (by cases h), fun _ => ?_, trivial⟩, rfl⟩
  unfold StackView.untouched at *
  show view.high - (view.rsp - bytes) ≤ _
  omega

theorem probeLoop_steady (remaining : Nat) (rsp : Int) :
    Steady (.touched rsp) (probeLoop remaining) ∧
      (StackView.touched rsp).afterAll (probeLoop remaining) = .touched (rsp - remaining) := by
  induction remaining using Nat.strongRecOn generalizing rsp with
  | ind remaining ih =>
    rw [probeLoop]
    by_cases hMore : remaining > BINARY_STACK_PAGE_SIZE
    · rw [if_pos hMore]
      have hLess : remaining - BINARY_STACK_PAGE_SIZE < remaining := by
        unfold BINARY_STACK_PAGE_SIZE at *
        omega
      obtain ⟨hRest, hEnd⟩ := ih _ hLess (rsp - BINARY_STACK_PAGE_SIZE)
      obtain ⟨hPage, hAfter⟩ := steady_descend_touch (.touched rsp)
        BINARY_STACK_PAGE_SIZE (by rw [untouched_touched]; omega)
      have hSplit : (.descend BINARY_STACK_PAGE_SIZE :: .touch ::
          probeLoop (remaining - BINARY_STACK_PAGE_SIZE)) =
          [.descend BINARY_STACK_PAGE_SIZE, .touch] ++
            probeLoop (remaining - BINARY_STACK_PAGE_SIZE) := rfl
      rw [hSplit, steady_append, afterAll_append, hAfter]
      refine ⟨⟨hPage, hRest⟩, ?_⟩
      refine hEnd.trans ?_
      congr 1
      show rsp - (BINARY_STACK_PAGE_SIZE : Int) - ((remaining - BINARY_STACK_PAGE_SIZE : Nat) : Int)
        = rsp - (remaining : Int)
      omega
    · rw [if_neg hMore]
      exact steady_descend_touch (.touched rsp) remaining
        (by rw [untouched_touched]; unfold BINARY_STACK_PAGE_SIZE at *; omega)

theorem frameAllocation_steady (frameSize rsp : Int) :
    Steady (.touched rsp) (binaryEmitFrameAllocation frameSize) ∧
      ((StackView.touched rsp).afterAll (binaryEmitFrameAllocation frameSize)).Bounded := by
  unfold binaryEmitFrameAllocation
  by_cases hEmpty : frameSize ≤ 0
  · rw [if_pos hEmpty]
    exact ⟨trivial, bounded_touched rsp⟩
  · rw [if_neg hEmpty]
    by_cases hSmall : frameSize ≤ BINARY_STACK_PAGE_SIZE
    · -- the frame of at most a page stays untouched
      rw [if_pos hSmall]
      refine ⟨⟨fun h => (by cases h), trivial⟩, ?_⟩
      show 0 ≤ rsp - (rsp - (frameSize.toNat : Int)) ∧ rsp - (rsp - (frameSize.toNat : Int)) ≤ _
      omega
    · rw [if_neg hSmall]
      obtain ⟨hSteady, hAfter⟩ := probeLoop_steady frameSize.toNat rsp
      rw [hAfter]
      exact ⟨hSteady, bounded_touched _⟩

variable {view : StackView}

theorem bounded_touches (hView : view.Bounded) (count : Nat) :
    Steady view (List.replicate count .touch) ∧
      (view.afterAll (List.replicate count .touch)).Bounded := by
  cases count with
  | zero => exact ⟨trivial, hView⟩
  | succ count =>
    obtain ⟨hSteady, hAfter⟩ := steady_touches count view.rsp
    refine ⟨⟨fun _ => hView.2, hSteady⟩, ?_⟩
    show ((StackView.touched view.rsp).afterAll (replicate count .touch)).Bounded
    rw [hAfter]
    exact bounded_touched _

theorem prologue_steady (context : FrameContext) (rsp : Int) :
    Steady (.touched rsp) (prologueEvents context) ∧
      ((StackView.touched rsp).afterAll (prologueEvents context)).Bounded := by
  obtain ⟨hPush, hPushed⟩ := steady_descend_touch (.touched rsp) 8
    (by rw [untouched_touched]; decide)
  obtain ⟨hFrame, hBounded⟩ := frameAllocation_steady context.frameSize
    ((StackView.touched rsp).rsp - (8 : Nat))
  obtain ⟨hStores, hAfter⟩ := bounded_touches hBounded context.stores
  unfold prologueEvents
  rw [steady_append, afterAll_append, hPushed, steady_append, afterAll_append]
  exact ⟨⟨hPush, hFrame, hStores⟩, hAfter⟩

theorem ascends_steady {events : List StackEvent}
    (hAscends : ∀ event ∈ events, ∃ bytes, event = .ascend bytes) (hView : view.Bounded) :
    Steady view events ∧ (view.afterAll events).Bounded := by
  induction events generalizing view with
  | nil => exact ⟨trivial, hView⟩
  | cons event rest ih =>
    obtain ⟨bytes, rfl⟩ := hAscends event mem_cons_self
    have hStep : (view.after (.ascend bytes)).Bounded := by
      unfold StackView.Bounded StackView.untouched at *
      show 0 ≤ max view.high (view.rsp + bytes) - (view.rsp + bytes) ∧
        max view.high (view.rsp + bytes) - (view.rsp + bytes) ≤ _
      omega
    obtain ⟨hSteady, hAfter⟩ := ih (fun event h => hAscends event (mem_cons_of_mem _ h)) hStep
    exact ⟨⟨fun h => (by cases h), hSteady⟩, hAfter⟩

theorem binaryAlignUpInt_16 {bytes : Nat} (hBytes : bytes ≤ 2147483632) :
    binaryAlignUpInt bytes 16 = some (roundUp16 bytes : Int) := by
  unfold binaryAlignUpInt roundUp16 INT_MAX
  rw [if_neg (by omega)]
  by_cases hZero : (bytes : Int) % 16 = 0
  · rw [if_pos hZero]
    congr 1
    omega
  · rw [if_neg hZero, if_neg (by omega)]
    congr 1
    omega

theorem isMemory_place (base : Int) (location : BinaryArgLocation) :
    (location.place base).isMemory = location.isStack := by
  cases location <;> rfl

theorem countP_isMemory (base : Int) (locations : List BinaryArgLocation) :
    (locations.map (BinaryArgLocation.place base)).countP ArgPlace.isMemory =
      locations.countP BinaryArgLocation.isStack := by
  rw [countP_map]
  congr 1
  funext location
  exact isMemory_place base location

theorem countP_pos_of_any {locations : List BinaryArgLocation}
    (h : locations.any BinaryArgLocation.isStack = true) :
    0 < locations.countP BinaryArgLocation.isStack := by
  rw [countP_pos_iff]
  exact any_eq_true.mp h

theorem indirectTempRegion_eq {bytes : Nat} (hBytes : bytes < 2147483632) :
    indirectTempRegion bytes = (roundUp16 bytes : Int) := by
  unfold indirectTempRegion roundUp16
  by_cases hPos : (bytes : Int) > 0
  · rw [if_pos hPos, cInt_of_range (by omega) (by omega)]
    omega
  · rw [if_neg hPos]
    omega

theorem emitCall_window {abi : BinaryAbi} {functionName : String} {signature : FunctionSignature}
    {plan : CallPlan} (hOk : codeGeneratorBinaryEmitCall abi functionName signature = .ok plan)
    (hSmall : (CallSite.named signature).windowBytes abi ≤ BINARY_STACK_PAGE_SIZE) :
    plan.callStackTotal = (CallSite.named signature).windowBytes abi ∧
      ((CallSite.named signature).writesWindow abi = true →
        0 < plan.copies.length + plan.arguments.countP ArgPlace.isMemory) := by
  obtain ⟨hArguments, hCopies, -⟩ := emitCall_ok hOk
  unfold CallSite.windowBytes at hSmall ⊢
  dsimp only [CallSite.structBytes, CallSite.stackBytes] at hSmall ⊢
  set structs := structBytes signature.parameterTypes with hStructs
  set layout := codeGeneratorBinaryComputeArgLayout abi (callIsFloat signature) with hLayout
  have hStructRoom : structs + 15 ≤ 2147483632 := by
    unfold roundUp16 BINARY_STACK_PAGE_SIZE at hSmall
    omega
  have hRoom : roundUp16 structs + abi.shadowSpaceSize + layout.2 ≤ 4096 := by
    unfold BINARY_STACK_PAGE_SIZE at hSmall
    generalize roundUp16 structs + abi.shadowSpaceSize + layout.2 = sum at hSmall ⊢
    unfold roundUp16 at hSmall
    omega
  obtain ⟨hPlanned, -, -, hSome, hNone⟩ :=
    planIndirectArgs_spec signature.parameterTypes 0 (by omega)
  rw [Nat.zero_add, Nat.cast_zero] at hPlanned
  rw [Nat.cast_zero] at hSome hNone
  constructor
  · unfold codeGeneratorBinaryEmitCall at hOk
    dsimp only at hOk
    rw [hPlanned, ← hStructs, indirectTempRegion_eq (by omega), ← hLayout] at hOk
    have hSum : cInt ((roundUp16 structs : Int) + abi.shadowSpaceSize + (layout.2 : Int)) =
        ((roundUp16 structs + abi.shadowSpaceSize + layout.2 : Nat) : Int) := by
      rw [cInt_of_range (by omega) (by omega)]
      rfl
    rw [hSum, binaryAlignUpInt_16 (by omega)] at hOk
    split at hOk
    · cases hOk
    · cases hOk
      rfl
  · intro hWrites
    rw [CallSite.writesWindow, Bool.or_eq_true, decide_eq_true_eq] at hWrites
    rcases hWrites with hStruct | hStack
    · -- a struct that takes bytes is a parameter passed by reference
      have hPass : ∃ paramType ∈ signature.parameterTypes,
          codeGeneratorAbiClassify paramType = .indirect := by
        by_contra hNot
        exact absurd (hNone hNot).1 (Nat.pos_iff_ne_zero.mp hStruct)
      obtain ⟨-, copy, hMem, -⟩ := hSome hPass
      rw [← hCopies] at hMem
      have hCopied := length_pos_of_mem hMem
      omega
    · have hPlaced : 0 < (userLocations abi signature).countP BinaryArgLocation.isStack :=
        countP_pos_of_any hStack
      rw [hArguments, countP_isMemory]
      omega

theorem emitCallIndirect_window {abi : BinaryAbi} {functionName : String}
    {parameterTypes : List (Option ResolvedType)} {plan : CallPlan}
    (hOk : codeGeneratorBinaryEmitCallIndirect abi functionName parameterTypes = .ok plan)
    (hSmall : (CallSite.throughPointer parameterTypes).windowBytes abi ≤ BINARY_STACK_PAGE_SIZE) :
    plan.callStackTotal = (CallSite.throughPointer parameterTypes).windowBytes abi ∧
      ((CallSite.throughPointer parameterTypes).writesWindow abi = true →
        0 < plan.copies.length + plan.arguments.countP ArgPlace.isMemory) := by
  unfold CallSite.windowBytes at hSmall ⊢
  dsimp only [CallSite.structBytes, CallSite.stackBytes] at hSmall ⊢
  set layout := codeGeneratorBinaryComputeArgLayout abi (parameterTypes.map fun type =>
    codeGeneratorBinaryResolvedTypeFloatBits type != 0) with hLayout
  have hZero : roundUp16 0 = 0 := rfl
  rw [hZero, Nat.zero_add] at hSmall ⊢
  have hRoom : abi.shadowSpaceSize + layout.2 ≤ 4096 := by
    unfold roundUp16 BINARY_STACK_PAGE_SIZE at hSmall
    omega
  have hSum : cInt ((abi.shadowSpaceSize : Int) + (layout.2 : Int)) =
      ((abi.shadowSpaceSize + layout.2 : Nat) : Int) := by
    rw [cInt_of_range (by omega) (by omega)]
    rfl
  unfold codeGeneratorBinaryEmitCallIndirect at hOk
  dsimp only at hOk
  rw [← hLayout, hSum, binaryAlignUpInt_16 (by omega)] at hOk
  split at hOk
  · cases hOk
  · cases hOk
    refine ⟨rfl, fun hWrites => ?_⟩
    rw [CallSite.writesWindow, Bool.or_eq_true, decide_eq_true_eq] at hWrites
    rcases hWrites with hStruct | hStack
    · dsimp only [CallSite.structBytes] at hStruct
      omega
    · dsimp only [CallSite.locations] at hStack
      rw [← hLayout] at hStack
      have hPlaced := countP_pos_of_any hStack
      rw [countP_isMemory]
      omega

theorem emitted_window (call : EmittedCall)
    (hSmall : call.site.windowBytes call.abi ≤ BINARY_STACK_PAGE_SIZE) :
    call.plan.callStackTotal = call.site.windowBytes call.abi ∧
      (call.site.writesWindow call.abi = true →
        0 < call.plan.copies.length + call.plan.arguments.countP ArgPlace.isMemory) := by
  obtain ⟨abi, functionName, site, plan, hEmitted⟩ := call
  cases site with
  | named signature =>
    exact emitCall_window hEmitted hSmall
  | throughPointer parameterTypes =>
    rw [CallSite.emit] at hEmitted
    exact emitCallIndirect_window hEmitted hSmall

/-- **The window.** -/
theorem window_steady (call : EmittedCall)
    (hFits : view.untouched + call.reach ≤ BINARY_STACK_PAGE_SIZE) (hView : view.Bounded) :
    Steady view (call.plan.windowEvents ++ callEvents) ∧
      ∃ rsp, view.afterAll (call.plan.windowEvents ++ callEvents) = .touched rsp := by
  have hNonneg := hView.1
  have hReach : call.site.windowBytes call.abi ≤ call.reach := Nat.le_add_right _ _
  obtain ⟨hTotal, hWrites⟩ := emitted_window call (by omega)
  unfold CallPlan.windowEvents
  -- the stack once the window is reserved
  set reserved : StackView := { view with rsp := view.rsp - call.plan.callStackTotal }
    with hReserved
  have hReserve : Steady view
        (if call.plan.callStackTotal > 0 then [.descend call.plan.callStackTotal.toNat] else []) ∧
      view.afterAll
        (if call.plan.callStackTotal > 0 then [.descend call.plan.callStackTotal.toNat] else []) =
        reserved := by
    by_cases hPos : call.plan.callStackTotal > 0
    · rw [if_pos hPos]
      refine ⟨⟨fun h => (by cases h), trivial⟩, ?_⟩
      show ({ view with rsp := view.rsp - (call.plan.callStackTotal.toNat : Int) } : StackView) = _
      rw [Int.toNat_of_nonneg (by omega)]
    · rw [if_neg hPos]
      refine ⟨trivial, ?_⟩
      have hZero : call.plan.callStackTotal = 0 := by omega
      rw [hReserved, hZero, sub_zero]
      rfl
  have hUntouched : reserved.untouched = view.untouched + call.site.windowBytes call.abi := by
    rw [hReserved, hTotal]
    unfold StackView.untouched
    dsimp only
    omega
  rw [append_assoc, steady_append, afterAll_append, hReserve.2, steady_append, afterAll_append]
  generalize hCount : call.plan.copies.length + call.plan.arguments.countP ArgPlace.isMemory =
    count at hWrites
  cases count with
  | zero =>
    -- nothing is stored, so the first touch is the return address
    have hNone : call.site.writesWindow call.abi = false := by
      rw [← Bool.not_eq_true]
      intro h
      exact absurd (hWrites h) (lt_irrefl 0)
    have hRoom : reserved.untouched + (8 : Nat) ≤ BINARY_STACK_PAGE_SIZE := by
      unfold EmittedCall.reach at hFits
      rw [hNone, if_neg Bool.false_ne_true] at hFits
      omega
    obtain ⟨hCall, hAfter⟩ := steady_descend_touch reserved 8 hRoom
    exact ⟨⟨hReserve.1, trivial, hCall⟩, _, hAfter⟩
  | succ count =>
    have hBounded : reserved.Bounded := ⟨by omega, by omega⟩
    have hFill := (bounded_touches hBounded (count + 1)).1
    have hFilled : reserved.afterAll (replicate (count + 1) .touch) = .touched reserved.rsp :=
      (steady_touches count reserved.rsp).2
    rw [hFilled]
    obtain ⟨hCall, hAfter⟩ := steady_descend_touch (.touched reserved.rsp) 8
      (by rw [untouched_touched]; decide)
    exact ⟨⟨hReserve.1, hFill, hCall⟩, _, hAfter⟩

theorem runtime_steady (sequence : RuntimeSequence)
    (hFits : view.untouched + sequence.reach ≤ BINARY_STACK_PAGE_SIZE) (hView : view.Bounded) :
    Steady view sequence.events ∧ (view.afterAll sequence.events).Bounded := by
  unfold StackView.Bounded StackView.untouched BINARY_STACK_PAGE_SIZE at *
  cases sequence <;>
    simp only [RuntimeSequence.reach, RuntimeSequence.events, Steady, StackView.afterAll,
      StackView.after, StackView.touched, StackView.untouched, BINARY_STACK_PAGE_SIZE,
      foldl_cons, foldl_nil, reduceCtorEq, false_implies, true_implies, true_and,
      and_true, Nat.cast_ofNat] at hFits ⊢ <;>
    omega

/-- **One action.** -/
theorem action_steady (activations : Activations) (action : StackAction) (hFits : action.Fits view)
    (hView : view.Bounded) :
    Steady view (action.events activations) ∧
      (view.afterAll (action.events activations)).Bounded := by
  cases action with
  | write => exact bounded_touches hView 1
  | call made callee =>
    obtain ⟨hWindow, rsp, hAfter⟩ := window_steady made hFits hView
    obtain ⟨hPrologue, hBounded⟩ := prologue_steady callee rsp
    show Steady view (_ ++ prologueEvents callee) ∧
      (view.afterAll (_ ++ prologueEvents callee)).Bounded
    rw [steady_append, afterAll_append view (_ ++ callEvents), hAfter]
    exact ⟨⟨hWindow, hPrologue⟩, hBounded⟩
  | callExternal made =>
    obtain ⟨hWindow, rsp, hAfter⟩ := window_steady made hFits hView
    have hAscends : ∀ event ∈ (.ascend 8 :: made.plan.releaseEvents : List StackEvent),
        ∃ bytes, event = .ascend bytes := by
      unfold CallPlan.releaseEvents
      split <;> simp
    obtain ⟨hReturn, hBounded⟩ := ascends_steady hAscends (bounded_touched rsp)
    show Steady view (_ ++ .ascend 8 :: made.plan.releaseEvents) ∧
      (view.afterAll (_ ++ .ascend 8 :: made.plan.releaseEvents)).Bounded
    rw [steady_append, afterAll_append view (_ ++ callEvents), hAfter]
    exact ⟨⟨hWindow, hReturn⟩, hBounded⟩
  | runtime sequence => exact runtime_steady sequence hFits hView
  | leave =>
    refine ascends_steady ?_ hView
    cases activations with
    | nil =>
      intro event hMem
      cases hMem
    | cons activation rest =>
      obtain ⟨context, window⟩ := activation
      intro event hMem
      rcases mem_append.mp hMem with hEpilogue | hRelease
      · unfold epilogueEvents at hEpilogue
        simp only [mem_cons, not_mem_nil, or_false] at hEpilogue
        rcases hEpilogue with rfl | rfl | rfl <;> exact ⟨_, rfl⟩
      · cases window with
        | none => cases hRelease
        | some plan =>
          unfold CallPlan.releaseEvents at hRelease
          dsimp only [Option.map_some, Option.getD_some] at hRelease
          split at hRelease
          · exact ⟨_, mem_singleton.mp hRelease⟩
          · cases hRelease

-- ---
-- Whole runs
-- ---

theorem actions_steady (actions : List StackAction) {activations : Activations}
    (hFits : CallsFit view activations actions) (hView : view.Bounded) :
    Steady view (runEvents activations actions) := by
  induction actions generalizing view activations with
  | nil => trivial
  | cons action rest ih =>
    obtain ⟨hAction, hBounded⟩ := action_steady activations action hFits.1 hView
    show Steady view (action.events activations ++ runEvents (action.next activations) rest)
    rw [steady_append]
    exact ⟨hAction, ih hFits.2 hBounded⟩

/-- **No page is skipped.** In every run of a compiled function, with any nesting of calls: if
at each call the window and what is reserved and untouched before it are together at most a
page, then between any two successive touches the stack pointer descends by at most a page. -/
theorem run_steady (context : FrameContext) (actions : List StackAction) (rsp : Int)
    (hFits : CallsFit ((StackView.touched rsp).afterAll (prologueEvents context))
      [(context, none)] actions) :
    Steady (.touched rsp) (runOf context actions) := by
  obtain ⟨hPrologue, hBounded⟩ := prologue_steady context rsp
  unfold runOf
  rw [steady_append]
  exact ⟨hPrologue, actions_steady actions hFits hBounded⟩

/-- The call of a function that takes a struct of `size` bytes by value. -/
def structCallSite (size : Nat) : CallSite :=
  .named { parameterTypes := [some ⟨.struct, size⟩], returnType := none }

def smallStructCall : EmittedCall :=
  { abi := MS_X64_ABI, functionName := "main", site := structCallSite 1000
    plan := { arguments := [.gp .rcx], hiddenReturn := none, copies := [⟨0, 1000⟩]
              callStackTotal := 1040 }
    emitted := by decide }

def smallFrame : FrameContext :=
  { frameSize := 32, savedRegisterCount := 0, returnsIndirect := false, homedParameters := 0 }

theorem run_steady_smallStruct : Steady (.touched 65536) (runOf smallFrame
      [.call smallStructCall smallFrame, .runtime .libraryCall, .write, .leave, .leave]) := by
  refine run_steady smallFrame _ 65536 ⟨?_, ?_, trivial, trivial, trivial, trivial⟩
  · rw [StackAction.Fits]
    decide
  · rw [StackAction.Fits]
    decide

def largeStructCall : EmittedCall :=
  { abi := MS_X64_ABI, functionName := "main", site := structCallSite 8192
    plan := { arguments := [.gp .rcx], hiddenReturn := none, copies := [⟨0, 8192⟩]
              callStackTotal := 8224 }
    emitted := by decide }

theorem largeStruct_skips_page :
    ¬ ∀ (context : FrameContext) (actions : List StackAction) (rsp : Int),
      Steady (.touched rsp) (runOf context actions) := by
  intro hClaim
  have hRun := hClaim smallFrame [.call largeStructCall smallFrame] 65536
  unfold runOf at hRun
  rw [steady_append] at hRun
  -- the first touch below the window is the copy of the struct
  have hCopy : (32 : Int) + 8224 ≤ 4096 := hRun.2.2.1 rfl
  exact absurd hCopy (by decide)

end Mettle.Codegen
