import Mettle.Lib.PassDriver
import Mettle.IR.Cse
import Mettle.IR.Propagation
import Mettle.IR.RotateAdd
import Mettle.IR.DeadTemps
import Mettle.IR.LoadCopy
import Mettle.IR.CollatzFold
import Mettle.IR.ReductionUnroll
import Mettle.Codegen.ConstantFold

/-!
# Mettle — the driver of the optimisation passes

`ir_optimize_function` runs 28 passes in at most eight rounds. `DRIVE_PASS` skips a pass that
has seen the present version of the function; `DRIVE_PASS_IF` skips one whose features the
function lacks, and marks it as clean. The features are collected at the start of the round,
so a pass may give the function a feature that a later pass of the same round is skipped for,
and as it counts as clean it is not run in the next round either.

Nineteen of the passes have their models here; the others are an argument. The passes in front
of and behind the rounds run once in any case and are left out.
-/

namespace Mettle.IR

open Mettle.Lib List Option
open Mettle.Codegen (irTryFoldIntegerUnary irSimplifyBranch)

-- ---
-- Features
-- ---

/-- What a function contains. -/
structure IROptFunctionFeatures where
  hasLabel : Bool
  hasWhileLabel : Bool
  hasJump : Bool
  hasBranchZero : Bool
  hasBranchEq : Bool
  hasCall : Bool
  hasLoad : Bool
  hasAssign : Bool
  hasBinary : Bool
  hasDiv : Bool
  hasTempWrite : Bool
  deriving DecidableEq

/-- Looks for the features. -/
def irCollectFunctionFeatures (function : IRFunction) : IROptFunctionFeatures :=
  let any := fun test : IRInstruction → Bool => function.instructions.any test
  { hasLabel := any (·.op == .label)
    hasWhileLabel := any fun c => c.op == .label && c.text.any ("ir_while_".isPrefixOf ·)
    hasJump := any (·.op == .jump)
    hasBranchZero := any (·.op == .branchZero)
    hasBranchEq := any (·.op == .branchEq)
    hasCall := any fun c => c.op == .call || c.op == .callIndirect
    hasLoad := any (·.op == .load)
    hasAssign := any (·.op == .assign)
    hasBinary := any (·.op == .binary)
    hasDiv := any fun c => c.op == .binary && c.text == some "/"
    hasTempWrite := any irInstructionWritesTemp }

/-- The condition of the `DRIVE_PASS_IF` of a pass; a plain `DRIVE_PASS` has none. -/
def IROptFunctionFeatures.passCondition (f : IROptFunctionFeatures) : Nat → Bool
  | 0 | 3 | 4 => f.hasLabel && f.hasJump
  | 5 => f.hasLabel && f.hasJump && f.hasDiv
  | 6 => f.hasLabel && f.hasJump && f.hasBranchZero && f.hasBinary
  | 7 => f.hasLabel && f.hasJump && f.hasBranchZero && f.hasBinary && f.hasLoad
  | 8 => f.hasLabel && f.hasJump && f.hasBranchZero && f.hasBinary
  | 9 => f.hasAssign
  | 12 => f.hasLabel && f.hasJump && f.hasBranchZero && f.hasLoad
  | 13 => f.hasTempWrite
  | 14 => f.hasLabel && (f.hasJump || f.hasBranchZero || f.hasBranchEq)
  | 15 => f.hasWhileLabel && f.hasBranchZero && f.hasCall
  | 16 => f.hasLabel && f.hasJump && (f.hasBranchZero || f.hasBranchEq)
  | 17 => f.hasLabel && (f.hasBranchZero || f.hasBranchEq)
  | 18 => f.hasLabel && f.hasJump
  | 20 => f.hasLabel && (f.hasJump || f.hasBranchZero || f.hasBranchEq)
  | 21 => f.hasLabel
  | 24 | 25 | 27 => f.hasLabel && f.hasJump && f.hasLoad
  | _ => true

-- ---
-- The passes
-- ---

/-- A pass that sets `changed` where it rewrites an instruction. -/
def rewriting (pass : IRFunction → IRFunction) : Pass IRFunction := fun function =>
  let result := pass function
  some (result, result != function)

def onInstructions (pass : List IRInstruction → List IRInstruction) : Pass IRFunction :=
  rewriting fun function => { function with instructions := pass function.instructions }

/-- What `ir_constant_and_branch_simplify_pass` does to an instruction that is not a binary
one: a unary operator is folded, an assignment to itself goes, a decided branch is a jump or
nothing. -/
def simplifyInstruction (instruction : IRInstruction) : IRInstruction :=
  match instruction.op, instruction.lhs with
  | .unary, .int value =>
    if instruction.isFloat then instruction
    else
      match instruction.text.bind (irTryFoldIntegerUnary · value) with
      | some result => irRewriteToAssignOperand instruction (.int result)
      | none => instruction
  | .assign, lhs =>
    if instruction.dest != .none && lhs != .none && irOperandEquals instruction.dest lhs then
      makeNop instruction
    else instruction
  | _, _ =>
    match irSimplifyBranch instruction with
    | some true =>
      { op := .jump, text := instruction.text, floatBits := instruction.floatBits }
    | some false => makeNop instruction
    | none => instruction

/-- `ir_constant_and_branch_simplify_pass`; `binary` is what it does if there is a binary
instruction in the function. -/
def irConstantAndBranchSimplifyPass (binary : Pass IRFunction) : Pass IRFunction :=
  fun function =>
    if function.instructions.any (·.op == .binary) then binary function
    else onInstructions (·.map simplifyInstruction) function

/-- The instructions as `ir_reduction_unroll_pass` gets them. -/
def unrollCode (function : IRFunction) : Unroll.Code :=
  function.instructions.map fun c => { toIRInstruction := c }

theorem reductionUnroll_returns (function : IRFunction) : ∃ fuel, (Unroll.irReductionUnrollPass
    function (fun _ => true) fuel (unrollCode function)).isSome = true := by
  obtain ⟨n, ok, last, unrolled, hScan, -⟩ : Unroll.ScanEnds function (fun _ => true)
    (unrollCode function) 0 [] := Unroll.scan_ends _ _ 0 []
  exact ⟨n, by rw [Unroll.irReductionUnrollPass, hScan n n.le_refl]; rfl⟩

/-- `ir_reduction_unroll_pass`; there is memory for its rewritings. -/
def reductionUnroll : Pass IRFunction := fun function =>
  (Unroll.irReductionUnrollPass function (fun _ => true)
    (Nat.find (reductionUnroll_returns function)) (unrollCode function)).map
      fun (_, code, unrolled) => ({ function with instructions := code.map (·.toIRInstruction) },
        !unrolled.isEmpty)

/-- The table of the driver. -/
def irOptPasses (others : Nat → Pass IRFunction) : Nat → Pass IRFunction
  | 0 => reductionUnroll
  | 1 => fun function => some (irCopyAndConstantPropagationPass function)
  | 2 => rewriting irFuseRotateAddPass
  | 5 => rewriting irPositiveLoopDiv2ToShiftPass
  | 6 => rewriting irFoldPopcountByteLoopPass
  | 8 => rewriting irCollatzOddStepFoldPass
  | 10 => fun function => some (irCommonSubexpressionEliminationPass function)
  | 11 => irConstantAndBranchSimplifyPass (others 11)
  | 13 => rewriting irEliminateDeadTempWritesPass
  | 14 => onInstructions threadJumpTargets
  | 15 => rewriting irNullCheckLicmPass
  | 16 => onInstructions removeEmptyConditionalDiamonds
  | 17 => onInstructions removeRedundantFallthroughBranches
  | 18 => onInstructions removeRedundantJumps
  | 19 => onInstructions eliminateUnreachableStraightline
  | 20 => onInstructions eliminateUnreachableBlocks
  | 21 => onInstructions removeUnusedLabels
  | 23 => rewriting irEliminateLoadSymbolCopyPass
  | 24 => rewriting irSimdSumI32Pass
  | i => others i

def IR_OPT_PASS_COUNT : Nat := 28

/-- The loop of `ir_optimize_function`. -/
def irOptimizeLoop (passes : Nat → Pass IRFunction) (function : IRFunction) : Option IRFunction :=
  drive passes (fun f => (irCollectFunctionFeatures f).passCondition)
    (List.range IR_OPT_PASS_COUNT) 8 (.start function)

def runAllPasses (passes : Nat → Pass IRFunction) (function : IRFunction) : Option IRFunction :=
  runRounds passes (List.range IR_OPT_PASS_COUNT) 8 function

/-- Whenever the loop skips a pass for a missing feature, the pass has nothing to do. -/
def FeatureSkipsIdle (passes : Nat → Pass IRFunction) (function : IRFunction) : Prop :=
  SkipsIdle passes (fun f => (irCollectFunctionFeatures f).passCondition)
    (List.range IR_OPT_PASS_COUNT) 8 (.start function)

-- ---
-- No report, no change
-- ---

theorem rewriting_honest (pass : IRFunction → IRFunction) : (rewriting pass).Honest := by
  intro function function' h
  obtain ⟨rfl, hSame⟩ := Prod.mk.inj (some.inj h)
  exact bne_eq_false_iff_eq.mp hSame

theorem code_unrollCode (function : IRFunction) :
    (unrollCode function).map (·.toIRInstruction) = function.instructions := by
  rw [unrollCode, List.map_map]
  exact List.map_id _

theorem reductionUnroll_honest : reductionUnroll.Honest := by
  intro function function' h
  obtain ⟨⟨ok, code, unrolled⟩, hScan, hResult⟩ := map_eq_some_iff.mp h
  obtain ⟨rfl, hNone⟩ := Prod.mk.inj hResult
  have hEmpty : unrolled = [] := by simpa using hNone
  have hSame := (Unroll.scan_unchanged hScan).2 (congrArg length hEmpty)
  rw [hSame, code_unrollCode]

/-- No loop that is unrolled has less than six instructions. -/
theorem reductionUnroll_short {function : IRFunction} (hShort : function.instructions.length ≤ 5) :
    reductionUnroll.Idle function := by
  obtain ⟨fuel, hFuel⟩ : ∃ fuel, Nat.find (reductionUnroll_returns function) = fuel + 1 := by
    refine Nat.exists_eq_succ_of_ne_zero fun hZero => ?_
    have hFound := Nat.find_spec (reductionUnroll_returns function)
    rw [hZero] at hFound
    cases hFound
  have hEnd : (unrollCode function).length ≤ 0 + 5 := (length_map _).trans_le hShort
  rw [Pass.Idle, reductionUnroll, hFuel, Unroll.irReductionUnrollPass, Unroll.reductionUnrollScan,
    if_pos hEnd, map_some]
  simp only [code_unrollCode]
  rfl

theorem tryPropagate_of_unmapped {tempMap : ValueMap} {symbolMap : Option ValueMap}
    {operand : IROperand} (h : (mappedOperand tempMap symbolMap operand).isSome = false) :
    irTryPropagateOperand tempMap symbolMap operand = operand := by
  rw [irTryPropagateOperand, isSome_eq_false_iff.mp h |> isNone_iff_eq_none.mp]

theorem propagate_of_none {tempMap symbolMap : ValueMap} {instruction : IRInstruction}
    (h : instructionPropagates tempMap symbolMap instruction = false) :
    irPropagateInstructionOperands tempMap symbolMap instruction = instruction := by
  have hMap : (instruction.arguments.any
        fun operand => (mappedOperand tempMap (some symbolMap) operand).isSome) = false →
      instruction.arguments.map (irTryPropagateOperand tempMap (some symbolMap)) =
        instruction.arguments := by
    intro hArguments
    refine (map_congr_left fun operand hMem => ?_).trans (map_id _)
    have hUnmapped := any_eq_false.mp hArguments operand hMem
    exact tryPropagate_of_unmapped (Bool.eq_false_iff.mpr hUnmapped)
  unfold instructionPropagates at h
  unfold irPropagateInstructionOperands
  split at h <;> rename_i hOp <;> simp only [Bool.or_eq_false_iff] at h <;> simp only [hOp]
  · rw [tryPropagate_of_unmapped h.1.1, tryPropagate_of_unmapped h.1.2,
      tryPropagate_of_unmapped h.2, ← hOp]
  · rw [tryPropagate_of_unmapped h, ← hOp]
  · rw [tryPropagate_of_unmapped h.1, tryPropagate_of_unmapped h.2, ← hOp]
  · rw [tryPropagate_of_unmapped h, ← hOp]
  iterate 9
    · rw [tryPropagate_of_unmapped h.1.1, tryPropagate_of_unmapped h.1.2, hMap h.2, ← hOp]

variable (state : PropagationState)

variable (instruction : IRInstruction)

theorem enter_anyChanged : (state.enter instruction).anyChanged = state.anyChanged := by
  unfold PropagationState.enter PropagationState.enterLabel
  split
  · dsimp only
    split <;> rfl
  · rfl

theorem record_anyChanged : (state.record instruction).anyChanged = state.anyChanged := by
  unfold PropagationState.record
  split <;> rfl

theorem leave_anyChanged : (state.leave instruction).anyChanged = state.anyChanged := by
  unfold PropagationState.leave
  split <;> split <;> try split
  all_goals rfl

theorem propagationStep_anyChanged : (propagationStep state instruction).1.anyChanged =
      (state.anyChanged || instructionPropagates (state.enter instruction).map
        (state.enter instruction).symbolMap instruction) := by
  show ((((state.enter instruction).record _).leave _).anyChanged || _) = _
  rw [leave_anyChanged, record_anyChanged, enter_anyChanged]

theorem walk_of_unchanged (instructions : List IRInstruction)
    (h : (instructions.foldl (fun s c => (propagationStep s c).1) state).anyChanged = false) :
    state.anyChanged = false ∧ mapAccum propagationStep state instructions = instructions := by
  induction instructions generalizing state with
  | nil => exact ⟨h, rfl⟩
  | cons instruction rest ih =>
    obtain ⟨hStep, hRest⟩ := ih _ h
    rw [propagationStep_anyChanged, Bool.or_eq_false_iff] at hStep
    refine ⟨hStep.1, ?_⟩
    rw [mapAccum, hRest]
    exact congrArg (· :: rest) (propagate_of_none hStep.2)

variable {code instructions : List IRInstruction}

theorem propagationLoop_of_unchanged {rounds : Nat} {labelIn : LabelMap} {anyChanged : Bool}
    {result : List IRInstruction}
    (h : propagationLoop rounds labelIn anyChanged instructions = (result, false)) :
    anyChanged = false ∧ result = instructions := by
  induction rounds generalizing labelIn anyChanged instructions with
  | zero =>
    cases h
    exact ⟨rfl, rfl⟩
  | succ rounds ih =>
    have hWalk : ∀ flag, (propagationEnd labelIn anyChanged instructions).anyChanged = flag →
        flag = false → anyChanged = false ∧
          propagationWalk labelIn anyChanged instructions = instructions := by
      rintro flag hFlag rfl
      rw [propagationEnd, stateAt, take_length] at hFlag
      exact walk_of_unchanged _ _ hFlag
    rw [propagationLoop] at h
    split_ifs at h with hFlow
    · obtain ⟨hFlag, rfl⟩ := ih h
      exact hWalk _ rfl hFlag
    · obtain ⟨rfl, hFlag⟩ := Prod.mk.inj h
      exact hWalk _ rfl hFlag

theorem propagation_honest :
    Pass.Honest fun function => some (irCopyAndConstantPropagationPass function) := by
  intro function function' h
  obtain ⟨rfl, hFlag⟩ := Prod.mk.inj (some.inj h)
  have hLoop := propagationLoop_of_unchanged
    (Prod.ext rfl hFlag : propagationLoop 8 [] false function.instructions = (_, false))
  cases function
  exact congrArg (IRFunction.mk _ _ · _) hLoop.2

theorem cse_honest :
    Pass.Honest fun function => some (irCommonSubexpressionEliminationPass function) := by
  intro function function' h
  obtain ⟨rfl, hFlag⟩ := Prod.mk.inj (some.inj h)
  cases function
  exact congrArg (IRFunction.mk _ _ · _) (bne_eq_false_iff_eq.mp hFlag)

variable {others : Nat → Pass IRFunction}

theorem irOptPasses_honest (hOthers : ∀ i, (others i).Honest) (i : Nat)
    : (irOptPasses others i).Honest := by
  unfold irOptPasses
  split
  case h_1 => exact reductionUnroll_honest
  case h_2 => exact propagation_honest
  case h_7 => exact cse_honest
  case h_8 =>
    intro function function' h
    unfold irConstantAndBranchSimplifyPass at h
    split_ifs at h
    · exact hOthers 11 _ _ h
    · exact rewriting_honest _ _ _ h
  case h_20 => exact hOthers i
  all_goals exact rewriting_honest _

/-- **Skipping passes does not change the result where the skipped ones have nothing to do.** A
pass that has seen the present version may always be skipped; one that is skipped for a missing
feature has to be idle. -/
theorem drive_sound (others : Nat → Pass IRFunction) (hOthers : ∀ i, (others i).Honest)
    (function : IRFunction) (hSkips : FeatureSkipsIdle (irOptPasses others) function) :
    irOptimizeLoop (irOptPasses others) function = runAllPasses (irOptPasses others) function :=
  drive_eq_runRounds (fun i _ => irOptPasses_honest hOthers i) 8 function hSkips

-- ---
-- Small functions
-- ---

def idlePasses : Nat → Pass IRFunction := fun _ function => some (function, false)

def asFunction (instructions : List IRInstruction) : IRFunction :=
  { name := "f", parameterNames := [], instructions }

theorem eliminateUnreachableBlocks_eq {marks : List Bool}
    (hMarks : reachableBlocks (rebuildCfg code) = marks) :
    eliminateUnreachableBlocks code = code.mapIdx fun i c =>
      if instructionReachable (rebuildCfg code) marks i then c else dropInstruction c := by
  rw [← hMarks]
  rfl

theorem reachableBlocks_one (block : IRBasicBlock) (hLast : block.successors = []) :
    reachableBlocks [block] = [true] := by
  simp [reachableBlocks, markReachable, hLast]

theorem reachableBlocks_two (first second : IRBasicBlock) (hFirst : first.successors = [1])
    (hSecond : second.successors = []) : reachableBlocks [first, second] = [true, true] := by
  simp [reachableBlocks, markReachable, hFirst, hSecond]

/-- The passes, without the two that `decide` does not run. -/
def withoutBlocks (passes : Nat → Pass IRFunction) (i : Nat) : Pass IRFunction :=
  if i = 0 ∨ i = 20 then idlePasses i else passes i

/-- `if (0) { }`: a branch to the label behind it. -/
def branchToNext : List IRInstruction :=
  [{ op := .branchZero, lhs := .int 0, text := some "L" }, { op := .label, text := some "L" },
    { op := .return_ }]

def jumpToNext : List IRInstruction :=
  [{ op := .jump, text := some "L" }, { op := .label, text := some "L" }, { op := .return_ }]

def labelNext : List IRInstruction :=
  [{ op := .nop }, { op := .label, text := some "L" }, { op := .return_ }]

def returnAlone : List IRInstruction := [{ op := .nop }, { op := .nop }, { op := .return_ }]

def branchStages : List IRFunction :=
  [asFunction branchToNext, asFunction jumpToNext, asFunction labelNext, asFunction returnAlone]

theorem blocks_idle (hSame : eliminateUnreachableBlocks code = code) :
    onInstructions eliminateUnreachableBlocks (asFunction code) =
      some (asFunction code, false) := by
  simp [onInstructions, rewriting, asFunction, hSame]

theorem branchStages_blocks : ∀ function ∈ branchStages,
    (onInstructions eliminateUnreachableBlocks).Idle function := by
  have hTwo : ∀ instructions ∈ [branchToNext, jumpToNext, labelNext],
      eliminateUnreachableBlocks instructions = instructions := by
    intro instructions hMem
    have hBlocks : rebuildCfg instructions = [⟨none, 0, 1, [1], []⟩, ⟨some "L", 1, 2, [], [0]⟩] := by
      revert instructions
      decide
    have hMarks : reachableBlocks (rebuildCfg instructions) = [true, true] := by
      rw [hBlocks]
      exact reachableBlocks_two _ _ rfl rfl
    rw [eliminateUnreachableBlocks_eq hMarks, hBlocks]
    clear hBlocks hMarks
    revert instructions
    decide
  have hOne : eliminateUnreachableBlocks returnAlone = returnAlone := by
    have hBlocks : rebuildCfg returnAlone = [⟨none, 0, 3, [], []⟩] := by decide
    have hMarks : reachableBlocks (rebuildCfg returnAlone) = [true] := by
      exact reachableBlocks_one _ rfl
    rw [eliminateUnreachableBlocks_eq hMarks, hBlocks]
    decide
  simp only [branchStages, forall_mem_cons]
  exact ⟨blocks_idle (hTwo _ (by simp)), blocks_idle (hTwo _ (by simp)),
    blocks_idle (hTwo _ (by simp)), blocks_idle hOne, nofun⟩

/-- What is known of the passes without a model: they leave a short function of labels, jumps
and branches alone. -/
def ControlIdle (others : Nat → Pass IRFunction) : Prop :=
  ∀ i ≠ 11, ∀ function : IRFunction, function.instructions.length < 80 →
    (∀ c ∈ function.instructions, c.op ∈ [.nop, .label, .jump, .branchZero, .return_]) →
    (others i).Idle function

theorem irOptPasses_on_stages (hOthers : ControlIdle others) :
    ∀ function, function ∈ branchStages → ∀ i ∈ List.range IR_OPT_PASS_COUNT,
      irOptPasses others i function = withoutBlocks (irOptPasses idlePasses) i function := by
  intro function hMem i hRange
  have hControl : function.instructions.length < 80 ∧
      ∀ c ∈ function.instructions, c.op ∈ [.nop, .label, .jump, .branchZero, .return_] := by
    revert function
    decide
  have hBinary : function.instructions.any (·.op == .binary) = false := by
    revert function
    decide
  have hShort : function.instructions.length ≤ 5 := by
    revert function
    decide
  by_cases hBlocks : i = 0 ∨ i = 20
  · rw [withoutBlocks, if_pos hBlocks]
    rcases hBlocks with rfl | rfl
    · exact reductionUnroll_short hShort
    · exact branchStages_blocks function hMem
  · rw [withoutBlocks, if_neg hBlocks]
    by_cases hSimplify : i = 11
    · subst hSimplify
      simp only [irOptPasses, irConstantAndBranchSimplifyPass, hBinary]
      rfl
    · have hIdle := hOthers i hSimplify function hControl.1 hControl.2
      unfold irOptPasses
      split <;> first | rfl | contradiction | exact hIdle

theorem closedUnder_of_all {passes : Nat → Pass IRFunction} {order : List Nat}
    {functions : List IRFunction}
    (h : ∀ function ∈ functions, ∀ i ∈ order,
      (passes i function).all fun result => decide (result.1 ∈ functions)) :
    ClosedUnder passes order (· ∈ functions) := by
  intro function hMem i hRange result changed hRun
  have hAll := h function hMem i hRange
  rw [hRun] at hAll
  exact of_decide_eq_true hAll

theorem branchStages_closed :
    ClosedUnder (withoutBlocks (irOptPasses idlePasses)) (List.range IR_OPT_PASS_COUNT)
      (· ∈ branchStages) :=
  closedUnder_of_all (by decide)

/-- The branch becomes a jump in a round that began without one. -/
theorem branch_to_next (hOthers : ControlIdle others) :
    irOptimizeLoop (irOptPasses others) (asFunction branchToNext) = some (asFunction jumpToNext) ∧
      runAllPasses (irOptPasses others) (asFunction branchToNext) =
        some (asFunction returnAlone) := by
  have hAgree := fun function hMem i hRange =>
    (irOptPasses_on_stages hOthers function hMem i hRange).symm
  have hStart : asFunction branchToNext ∈ branchStages := mem_cons_self
  refine ⟨?_, ?_⟩
  · rw [irOptimizeLoop, ← drive_congr branchStages_closed hAgree 8 hStart]
    decide
  · rw [runAllPasses, ← runRounds_congr branchStages_closed hAgree 8 hStart]
    decide

/-- **Skipping does change a result.** -/
theorem skipping_differs :
    ¬ ∀ others : Nat → Pass IRFunction, ControlIdle others → ∀ function : IRFunction,
      irOptimizeLoop (irOptPasses others) function =
        runAllPasses (irOptPasses others) function := by
  intro hAll
  have hIdle : ControlIdle idlePasses := fun _ _ _ _ _ => rfl
  obtain ⟨hLoop, hAllRun⟩ := branch_to_next hIdle
  have hSame := hAll idlePasses hIdle (asFunction branchToNext)
  rw [hLoop, hAllRun] at hSame
  exact absurd (some.inj hSame) (by decide)

/-- `return -5`, before and after the sign is folded. -/
def negation : List IRInstruction :=
  [{ op := .unary, dest := .symbol "x", lhs := .int 5, text := some "-" },
    { op := .return_, lhs := .symbol "x" }]

def negated : List IRInstruction :=
  [{ op := .assign, dest := .symbol "x", lhs := .int (-5) }, { op := .return_, lhs := .symbol "x" }]

theorem negation_blocks : ∀ function ∈ [asFunction negation, asFunction negated],
    (onInstructions eliminateUnreachableBlocks).Idle function := by
  have hOne : ∀ instructions ∈ [negation, negated],
      eliminateUnreachableBlocks instructions = instructions := by
    intro instructions hMem
    have hBlocks : rebuildCfg instructions = [⟨none, 0, 2, [], []⟩] := by
      revert instructions
      decide
    have hMarks : reachableBlocks (rebuildCfg instructions) = [true] := by
      rw [hBlocks]
      exact reachableBlocks_one _ rfl
    rw [eliminateUnreachableBlocks_eq hMarks, hBlocks]
    clear hBlocks hMarks
    revert instructions
    decide
  simp only [forall_mem_cons]
  exact ⟨blocks_idle (hOne _ (by simp)), blocks_idle (hOne _ (by simp)), nofun⟩

theorem drive_sound_negation : irOptimizeLoop (irOptPasses idlePasses) (asFunction negation) =
      runAllPasses (irOptPasses idlePasses) (asFunction negation) := by
  have hAgree : ∀ function ∈ [asFunction negation, asFunction negated],
      ∀ i, withoutBlocks (irOptPasses idlePasses) i function = irOptPasses idlePasses i function := by
    intro function hMem i
    have hShort : function.instructions.length ≤ 5 := by
      revert function
      decide
    by_cases hBlocks : i = 0 ∨ i = 20
    · rw [withoutBlocks, if_pos hBlocks]
      rcases hBlocks with rfl | rfl
      · exact (reductionUnroll_short hShort).symm
      · exact (negation_blocks function hMem).symm
    · rw [withoutBlocks, if_neg hBlocks]
  have hClosed : ClosedUnder (withoutBlocks (irOptPasses idlePasses))
      (range IR_OPT_PASS_COUNT) (· ∈ [asFunction negation, asFunction negated]) :=
    closedUnder_of_all (by decide)
  have hIdle : ∀ a ∈ [asFunction negation, asFunction negated],
      ∀ b ∈ [asFunction negation, asFunction negated], ∀ i ∈ range IR_OPT_PASS_COUNT,
      (irCollectFunctionFeatures a).passCondition i = false →
        (withoutBlocks (irOptPasses idlePasses) i).Idle b := by
    decide
  refine drive_sound idlePasses (fun _ _ _ h => (Prod.mk.inj (some.inj h)).1.symm) _ ?_
  refine skipsIdle_of_closed (S := (· ∈ [asFunction negation, asFunction negated])) ?_ ?_ 8
    mem_cons_self
  · intro function hMem i hRange result changed hRun
    exact hClosed function hMem i hRange result changed ((hAgree function hMem i).trans hRun)
  · intro a b ha hb i hRange hDisabled
    exact (hAgree b hb i).symm.trans (hIdle a ha b hb i hRange hDisabled)

end Mettle.IR
