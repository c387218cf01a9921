import Mathlib.Algebra.GroupWithZero.Nat
import Mettle.IR.Paths

/-!
# Mettle — the peephole matchers of the binary back end

The model of the matchers of `codegen/binary/peephole.c` and of the loop of
`code_generator_emit_binary_function` that asks them in order. The scaled-address fusion
leaves out an index shift `t = x << k` and lets the memory accesses that use `t` compute
`base + x * 2^k` by themselves; the shift is found by looking backwards in the text
(`findTempProducerBefore`).

The other fusions (compare and branch, conditional move, cast and expression chains) matter
here for the instructions they swallow. Whether a cast keeps a 64-bit word is decided by the
type checker and is a parameter.
-/

namespace Mettle.Codegen

open Mettle.IR List Option

-- ---
-- Uses and producers of a temp
-- ---

/-- The operand is the temp. -/
def operandUsesTemp (operand : IROperand) (name : String) : Bool :=
  operand == .temp name

/-- The reads of a temp by an instruction. -/
def instructionTempUseCount (instruction : IRInstruction) (name : String) : Nat :=
  (if operandUsesTemp instruction.lhs name then 1 else 0) +
    (if operandUsesTemp instruction.rhs name then 1 else 0) +
    (if instruction.op = .store ∧ operandUsesTemp instruction.dest name then 1 else 0) +
    instruction.arguments.countP (operandUsesTemp · name)

attribute [local simp] operandUsesTemp instructionTempUseCount

/-- The reads of a temp in a function. -/
def functionTempUseCount (function : IRFunction) (name : String) : Nat :=
  (function.instructions.map (instructionTempUseCount · name)).sum

/-- The jumps and branches to a label. -/
def labelReferenceCount (function : IRFunction) (label : String) : Nat :=
  function.instructions.countP fun instruction =>
    instruction.text == some label &&
      (instruction.op == .jump || instruction.op == .branchZero || instruction.op == .branchEq)

/-- The last instruction in front of `before`, in the text, whose destination is the temp. -/
def findTempProducerBefore (function : IRFunction) : Nat → String → Option Nat
  | 0, _ => none
  | before + 1, name =>
    match function.instructions[before]? with
    | some instruction =>
      if operandUsesTemp instruction.dest name then some before
      else findTempProducerBefore function before name
    | none => findTempProducerBefore function before name

def isTemp : IROperand → Bool
  | .temp _ => true
  | _ => false

def isInt : IROperand → Bool
  | .int _ => true
  | _ => false

def isSymbol : IROperand → Bool
  | .symbol _ => true
  | _ => false

/-- The scale `2^k` of `_ << k`, for `k` up to 3. -/
def shiftScale (instruction : IRInstruction) : Option Nat :=
  if instruction.op = .binary ∧ instruction.isFloat = false ∧ instruction.text = some "<<" then
    match instruction.rhs with
    | .int k => if 0 ≤ k ∧ k ≤ 3 then some (2 ^ k.toNat) else none
    | _ => none
  else none

-- ---
-- Scaled addresses
-- ---

/-- The address `base + index * scale`; `scaled` is the temp it stands for and `shift` the
instruction that was found to produce it. -/
structure ScaledAddress where
  base : IROperand
  index : IROperand
  scale : Nat
  scaled : String
  shift : Nat
  deriving DecidableEq

def isAddressAdd (instruction : IRInstruction) : Bool :=
  instruction.op == .binary && !instruction.isFloat && instruction.text == some "+" &&
    isTemp instruction.dest

def scaledCandidates (address : IRInstruction) : List (String × IROperand) :=
  (match address.lhs with
    | .temp name => if isInt address.rhs then [] else [(name, address.rhs)]
    | _ => []) ++
  (match address.rhs with
    | .temp name => if isInt address.lhs then [] else [(name, address.lhs)]
    | _ => [])

def probeCandidate (function : IRFunction) (instructionIndex : Nat)
    (candidate : String × IROperand) : Option ScaledAddress :=
  match findTempProducerBefore function instructionIndex candidate.1 with
  | none => none
  | some p =>
    match function.instructions[p]? with
    | none => none
    | some producer =>
      if isInt producer.lhs then none
      else
        (shiftScale producer).map fun scale =>
          { base := candidate.2, index := producer.lhs, scale, scaled := candidate.1, shift := p }

/-- An address whose index a shift has scaled before. -/
def tryMatchScaledTempAddress (function : IRFunction) (instructionIndex : Nat)
    (address : IRInstruction) : Option ScaledAddress :=
  if isAddressAdd address then
    match (scaledCandidates address).findSome? (probeCandidate function instructionIndex) with
    | none => none
    -- the index is read again, which only a symbol is sure to survive
    | some found => if isSymbol found.index then some found else none
  else none

/-- The next instruction alone uses the address. -/
def addressConsumedByAdjacentMemory (function : IRFunction) (addressIndex : Nat) : Bool :=
  match function.instructions[addressIndex]?, function.instructions[addressIndex + 1]? with
  | some address, some consumer =>
    match address.dest with
    | .temp name =>
      address.op == .binary && functionTempUseCount function name == 1 &&
        match consumer.op with
        | .load => operandUsesTemp consumer.lhs name
        | .store => operandUsesTemp consumer.dest name
        | _ => false
    | _ => false
  | _, _ => false

def feedsScaledAddress (function : IRFunction) (name : String)
    (entry : IRInstruction × Nat) : Bool :=
  let (instruction, i) := entry
  instructionTempUseCount instruction name == 0 ||
    (isAddressAdd instruction && addressConsumedByAdjacentMemory function i &&
      (if operandUsesTemp instruction.lhs name then !isInt instruction.rhs
       else operandUsesTemp instruction.rhs name && !isInt instruction.lhs))

/-- Fused accesses alone read the shift. -/
def shiftOnlyFeedsScaledAddresses (function : IRFunction) (shiftIndex : Nat) : Bool :=
  match function.instructions[shiftIndex]? with
  | none => false
  | some shift =>
    match shift.dest with
    | .temp name =>
      isSymbol shift.lhs && (shiftScale shift).isSome &&
        function.instructions.zipIdx.all (feedsScaledAddress function name) &&
        decide (functionTempUseCount function name > 0)
    | _ => false

/-- A shift and an addition as one address. -/
def tryMatchScaledAddress (function : IRFunction) (instructionIndex : Nat) :
    Option ScaledAddress :=
  match function.instructions[instructionIndex]?, function.instructions[instructionIndex + 1]? with
  | some shift, some address =>
    match shift.dest, shiftScale shift with
    | .temp name, some scale =>
      if isInt shift.lhs || functionTempUseCount function name != 1 || !isAddressAdd address then
        none
      else if operandUsesTemp address.lhs name then
        if isInt address.rhs then none
        else some { base := address.rhs, index := shift.lhs, scale, scaled := name,
                    shift := instructionIndex }
      else if operandUsesTemp address.rhs name then
        if isInt address.lhs then none
        else some { base := address.lhs, index := shift.lhs, scale, scaled := name,
                    shift := instructionIndex }
      else none
    | _, _ => none
  | _, _ => none

def getAccessSize : IROperand → Int
  -- `(int)` of a `long long`
  | .int size => if size ≤ 0 then 0 else Int.bmod size (2 ^ 32)
  | _ => 0

-- ---
-- The other fusions
-- ---

/-- The comparisons. -/
def isCompareOperator (text : Option String) : Bool :=
  text == some "==" || text == some "!=" || text == some "<" || text == some "<=" ||
    text == some ">" || text == some ">="

/-- The operators that a chain can start with. -/
def chainProducerSupported (text : Option String) : Bool :=
  text == some "+" || text == some "-" || text == some "*" || text == some "/" ||
    text == some "%" || text == some "&" || text == some "|" || text == some "^" ||
    text == some "<<" || text == some ">>"

/-- The operators whose operands may be swapped. -/
def operatorIsCommutative (text : Option String) : Bool :=
  text == some "+" || text == some "*" || text == some "&" || text == some "|" || text == some "^"

def isSingleUseBinary (function : IRFunction) (instruction : IRInstruction) : Bool :=
  instruction.op == .binary && !instruction.isFloat &&
    match instruction.dest with
    | .temp name => functionTempUseCount function name == 1
    | _ => false

def usesResultOf (operand : IROperand) (producer : IRInstruction) : Bool :=
  isTemp producer.dest && operand == producer.dest

/-- An operator, a comparison and a branch as one. -/
def matchesCompareBranchChain (function : IRFunction) (i : Nat) : Bool :=
  match function.instructions[i]?, function.instructions[i + 1]?, function.instructions[i + 2]? with
  | some producer, some compare, some branch =>
    let equality := compare.text == some "==" || compare.text == some "!="
    isSingleUseBinary function producer && chainProducerSupported producer.text &&
      isSingleUseBinary function compare && isCompareOperator compare.text &&
      branch.op == .branchZero && branch.text.isSome && usesResultOf branch.lhs compare &&
      (if usesResultOf compare.lhs producer then
        !(isSymbol compare.lhs && isInt compare.rhs && !equality)
       else
        equality && usesResultOf compare.rhs producer)
  | _, _, _ => false

def matchesCompareAssignDiamond (function : IRFunction) (i : Nat) : Bool :=
  match function.instructions[i]?, function.instructions[i + 1]?, function.instructions[i + 2]?,
      function.instructions[i + 3]?, function.instructions[i + 4]?,
      function.instructions[i + 5]? with
  | some compare, some branch, some assign, some jump, some falseLabel, some endLabel =>
    isSingleUseBinary function compare && isCompareOperator compare.text &&
      branch.op == .branchZero && branch.text.isSome && usesResultOf branch.lhs compare &&
      assign.op == .assign && assign.dest != .none && !isInt assign.dest &&
      jump.op == .jump && jump.text.isSome && falseLabel.op == .label &&
      endLabel.op == .label && branch.text == falseLabel.text && jump.text == endLabel.text &&
      labelReferenceCount function (falseLabel.text.getD "") == 1 &&
      labelReferenceCount function (endLabel.text.getD "") == 1
  | _, _, _, _, _, _ => false

/-- An operator whose cast changes no bit. -/
def matchesCastChain (keepsWord : String → Bool) (function : IRFunction) (i : Nat) : Bool :=
  match function.instructions[i]?, function.instructions[i + 1]? with
  | some producer, some cast =>
    isSingleUseBinary function producer && chainProducerSupported producer.text &&
      cast.op == .cast && !cast.isFloat && cast.text.any keepsWord &&
      usesResultOf cast.lhs producer
  | _, _ => false

/-- Two operators in one register. -/
def matchesExpressionChain (function : IRFunction) (i : Nat) : Bool :=
  match function.instructions[i]?, function.instructions[i + 1]? with
  | some producer, some consumer =>
    isSingleUseBinary function producer && chainProducerSupported producer.text &&
      consumer.op == .binary && !consumer.isFloat && chainProducerSupported consumer.text &&
      (usesResultOf consumer.lhs producer ||
        (operatorIsCommutative consumer.text && usesResultOf consumer.rhs producer))
  | _, _ => false

/-- A comparison and a branch as one. -/
def matchesCompareBranchZero (function : IRFunction) (i : Nat) : Bool :=
  match function.instructions[i]?, function.instructions[i + 1]? with
  | some compare, some branch =>
    isSingleUseBinary function compare && isCompareOperator compare.text &&
      branch.op == .branchZero && branch.text.any (· != "") && usesResultOf branch.lhs compare
  | _, _ => false

-- ---
-- The loop of the driver
-- ---

inductive Emission
  | skip
  | addLoad (scaled : Option ScaledAddress)
  | addStore (scaled : Option ScaledAddress)
  | scaledLoad (scaled : ScaledAddress)
  | scaledStore (scaled : ScaledAddress)
  -- one of the other fusions: the instructions it swallows compute what they say
  | chain (consumed : Nat)
  | plain
  deriving DecidableEq

def Emission.consumed : Emission → Nat
  | .skip => 1
  | .addLoad _ | .addStore _ => 2
  | .scaledLoad _ | .scaledStore _ => 3
  | .chain n => n
  | .plain => 1

/-- The address at `i` is an addition that the memory access at `i + 1` alone uses. -/
def tryEmitAddressAdd (function : IRFunction) (i : Nat) : Option Emission :=
  match function.instructions[i]?, function.instructions[i + 1]? with
  | some address, some memory =>
    if isAddressAdd address && addressConsumedByAdjacentMemory function i &&
        decide (getAccessSize memory.rhs > 0) then
      let scaled := tryMatchScaledTempAddress function i address
      some (if memory.op = .load then .addLoad scaled else .addStore scaled)
    else none
  | _, _ => none

/-- A load or store at a scaled address. -/
def tryEmitScaledAddress (function : IRFunction) (i : Nat) : Option Emission :=
  match tryMatchScaledAddress function i, function.instructions[i + 2]? with
  | some scaled, some memory =>
    if addressConsumedByAdjacentMemory function (i + 1) &&
        decide (getAccessSize memory.rhs > 0) then
      some (if memory.op = .load then .scaledLoad scaled else .scaledStore scaled)
    else none
  | _, _ => none

def emitAt (keepsWord : String → Bool) (function : IRFunction) (i : Nat) : Emission :=
  if shiftOnlyFeedsScaledAddresses function i then .skip
  else if matchesCompareBranchChain function i then .chain 3
  else if matchesCompareAssignDiamond function i then .chain 6
  else
    match tryEmitAddressAdd function i with
    | some emission => emission
    | none =>
      match tryEmitScaledAddress function i with
      | some emission => emission
      | none =>
        if matchesCastChain keepsWord function i then .chain 2
        else if matchesExpressionChain function i then .chain 2
        else if matchesCompareBranchZero function i then .chain 2
        else .plain

/-- The loop of `code_generator_emit_binary_function`, from instruction `i` on. -/
def emitFrom (keepsWord : String → Bool) (function : IRFunction) : Nat → Nat → List (Nat × Emission)
  | 0, _ => []
  | rounds + 1, i =>
    if i < function.instructions.length then
      let emission := emitAt keepsWord function i
      (i, emission) :: emitFrom keepsWord function rounds (i + emission.consumed)
    else []

def emitBinaryFunction (keepsWord : String → Bool) (function : IRFunction) :
    List (Nat × Emission) :=
  emitFrom keepsWord function function.instructions.length 0

/-- What stands for instruction `i`; an instruction inside a fusion has nothing of its own. -/
def emissionAt (keepsWord : String → Bool) (function : IRFunction) (i : Nat) : Emission :=
  ((emitBinaryFunction keepsWord function).lookup i).getD .plain

def Emission.isAccess : Emission → Bool
  | .addLoad _ | .addStore _ | .scaledLoad _ | .scaledStore _ => true
  | _ => false

/-- The instruction is swallowed by the access emitted at `k`. -/
def Inside (keepsWord : String → Bool) (function : IRFunction) (k i : Nat) : Prop :=
  (emissionAt keepsWord function k).isAccess = true ∧ k < i ∧
    i < k + (emissionAt keepsWord function k).consumed

variable {address memory : IRInstruction} {a : ScaledAddress}

section Driver

variable {keepsWord : String → Bool} {function : IRFunction}

/-! ### What the matchers accept -/

variable {c : IRInstruction}

theorem isAddressAdd_spec (h : isAddressAdd c = true) :
    c.op = .binary ∧ c.isFloat = false ∧ c.text = some "+" ∧ ∃ name, c.dest = .temp name := by
  simp only [isAddressAdd, Bool.and_eq_true, beq_iff_eq, Bool.not_eq_true'] at h
  obtain ⟨⟨⟨hOp, hFloat⟩, hText⟩, hDest⟩ := h
  refine ⟨hOp, hFloat, hText, ?_⟩
  cases hCase : c.dest <;> rw [hCase] at hDest <;> first | exact ⟨_, rfl⟩ | cases hDest

theorem shiftScale_spec {scale : Nat} (h : shiftScale c = some scale) :
    c.op = .binary ∧ c.isFloat = false ∧ c.text = some "<<" ∧
      ∃ k : Nat, k ≤ 3 ∧ c.rhs = .int k ∧ scale = 2 ^ k := by
  unfold shiftScale at h
  split at h
  · rename_i hShape
    refine ⟨hShape.1, hShape.2.1, hShape.2.2, ?_⟩
    cases hRhs : c.rhs with
    | int k =>
      rw [hRhs] at h
      dsimp only at h
      split at h
      · rename_i hRange
        refine ⟨k.toNat, by omega, ?_, (some.inj h).symm⟩
        rw [Int.toNat_of_nonneg hRange.1]
      · cases h
    | _ =>
      rw [hRhs] at h
      cases h
  · cases h

variable {i : Nat}

theorem addressConsumed_spec (h : addressConsumedByAdjacentMemory function i = true) :
    ∃ address memory name, function.instructions[i]? = some address ∧
      function.instructions[i + 1]? = some memory ∧ address.dest = .temp name ∧
      address.op = .binary ∧ functionTempUseCount function name = 1 ∧
      ((memory.op = .load ∧ memory.lhs = .temp name) ∨
        (memory.op = .store ∧ memory.dest = .temp name)) := by
  unfold addressConsumedByAdjacentMemory at h
  split at h
  · rename_i address memory hA hM
    split at h
    · rename_i name hDest
      simp only [Bool.and_eq_true, beq_iff_eq] at h
      refine ⟨address, memory, name, hA, hM, hDest, h.1.1, h.1.2, ?_⟩
      have hUse := h.2
      split at hUse
      · rename_i hOp
        exact Or.inl ⟨hOp, by simpa using hUse⟩
      · rename_i hOp
        exact Or.inr ⟨hOp, by simpa using hUse⟩
      · cases hUse
    · cases h
  · cases h

theorem shiftOnlyFeeds_spec {p : Nat} (h : shiftOnlyFeedsScaledAddresses function p = true) :
    ∃ shift name scale, function.instructions[p]? = some shift ∧ shift.dest = .temp name ∧
      isSymbol shift.lhs = true ∧ shiftScale shift = some scale ∧
      ∀ i c, function.instructions[i]? = some c → instructionTempUseCount c name ≠ 0 →
        isAddressAdd c = true ∧ addressConsumedByAdjacentMemory function i = true := by
  unfold shiftOnlyFeedsScaledAddresses at h
  split at h
  · cases h
  · rename_i shift hGet
    split at h
    · rename_i name hDest
      simp only [Bool.and_eq_true, decide_eq_true_eq] at h
      obtain ⟨⟨⟨hSymbol, hScale⟩, hAll⟩, -⟩ := h
      obtain ⟨scale, hScale⟩ := isSome_iff_exists.mp hScale
      refine ⟨shift, name, scale, hGet, hDest, hSymbol, hScale, ?_⟩
      intro i c hc hUse
      have hMem : (c, i) ∈ function.instructions.zipIdx := by
        rw [mem_zipIdx_iff_getElem?]
        exact hc
      have hFeeds := all_eq_true.mp hAll _ hMem
      simp only [feedsScaledAddress, Bool.or_eq_true, beq_iff_eq, hUse, false_or,
        Bool.and_eq_true] at hFeeds
      exact ⟨hFeeds.1.1, hFeeds.1.2⟩
    · cases h

variable {name : String}

theorem findTempProducerBefore_spec {before p : Nat}
    (h : findTempProducerBefore function before name = some p) :
    ∃ c, function.instructions[p]? = some c ∧ c.dest = .temp name := by
  induction before with
  | zero => cases h
  | succ before ih =>
    rw [findTempProducerBefore] at h
    split at h
    · rename_i c hGet
      split at h
      · rename_i hUse
        cases h
        exact ⟨c, hGet, by simpa using hUse⟩
      · exact ih h
    · exact ih h

theorem tryMatchScaledTempAddress_spec (h : tryMatchScaledTempAddress function i address = some a) :
    isAddressAdd address = true ∧ ((address.lhs = .temp a.scaled ∧ address.rhs = a.base) ∨
        (address.rhs = .temp a.scaled ∧ address.lhs = a.base)) ∧
      isSymbol a.index = true ∧
      ∃ shift, function.instructions[a.shift]? = some shift ∧ shift.dest = .temp a.scaled ∧
        shift.lhs = a.index ∧ shiftScale shift = some a.scale := by
  unfold tryMatchScaledTempAddress at h
  split at h
  · rename_i hAdd
    split at h
    · cases h
    · rename_i found hFound
      split at h
      · rename_i hSymbol
        cases h
        obtain ⟨candidate, hMem, hProbe⟩ := exists_of_findSome?_eq_some hFound
        unfold probeCandidate at hProbe
        split at hProbe
        · cases hProbe
        · rename_i p hProducer
          obtain ⟨c, hGet, hDest⟩ := findTempProducerBefore_spec hProducer
          rw [hGet] at hProbe
          dsimp only at hProbe
          split at hProbe
          · cases hProbe
          · obtain ⟨scale, hScale, hEq⟩ := map_eq_some_iff.mp hProbe
            have hParts : (address.lhs = .temp candidate.1 ∧ address.rhs = candidate.2) ∨
                (address.rhs = .temp candidate.1 ∧ address.lhs = candidate.2) := by
              rcases mem_append.mp hMem with hLeft | hRight
              · left
                split at hLeft
                · rename_i name hLhs
                  split at hLeft
                  · cases hLeft
                  · rw [mem_singleton.mp hLeft]
                    exact ⟨hLhs, rfl⟩
                · cases hLeft
              · right
                split at hRight
                · rename_i name hRhs
                  split at hRight
                  · cases hRight
                  · rw [mem_singleton.mp hRight]
                    exact ⟨hRhs, rfl⟩
                · cases hRight
            subst hEq
            exact ⟨hAdd, hParts, hSymbol, c, hGet, hDest, rfl, hScale⟩
      · cases h
  · cases h

theorem tryMatchScaledAddress_spec (h : tryMatchScaledAddress function i = some a) :
    ∃ shift address, function.instructions[i]? = some shift ∧
      function.instructions[i + 1]? = some address ∧ isAddressAdd address = true ∧
      shift.dest = .temp a.scaled ∧ shift.lhs = a.index ∧ shiftScale shift = some a.scale ∧
      functionTempUseCount function a.scaled = 1 ∧
      ((address.lhs = .temp a.scaled ∧ address.rhs = a.base) ∨
        (address.rhs = .temp a.scaled ∧ address.lhs = a.base)) := by
  unfold tryMatchScaledAddress at h
  split at h
  · rename_i shift address hS hA
    split at h
    · rename_i name scale hDest hScale
      split at h
      · cases h
      · rename_i hShape
        simp only [Bool.or_eq_true, not_or, Bool.not_eq_true, Bool.not_eq_false',
          bne_eq_false_iff_eq] at hShape
        obtain ⟨⟨-, hCount⟩, hAdd⟩ := hShape
        split at h
        · rename_i hUse
          split at h
          · cases h
          · cases h
            exact ⟨shift, address, hS, hA, hAdd, hDest, rfl, hScale, hCount,
              Or.inl ⟨by simpa using hUse, rfl⟩⟩
        · split at h
          · rename_i hUse
            split at h
            · cases h
            · cases h
              exact ⟨shift, address, hS, hA, hAdd, hDest, rfl, hScale, hCount,
                Or.inr ⟨by simpa using hUse, rfl⟩⟩
          · cases h
    · cases h
  · cases h

variable {emission : Emission}

theorem tryEmitAddressAdd_spec (h : tryEmitAddressAdd function i = some emission) :
    ∃ address memory, function.instructions[i]? = some address ∧
      function.instructions[i + 1]? = some memory ∧ isAddressAdd address = true ∧
      addressConsumedByAdjacentMemory function i = true ∧
      emission = if memory.op = .load then .addLoad (tryMatchScaledTempAddress function i address)
        else .addStore (tryMatchScaledTempAddress function i address) := by
  unfold tryEmitAddressAdd at h
  split at h
  · rename_i address memory hA hM
    split at h
    · rename_i hShape
      simp only [Bool.and_eq_true] at hShape
      exact ⟨address, memory, hA, hM, hShape.1.1, hShape.1.2, (some.inj h).symm⟩
    · cases h
  · cases h

theorem tryEmitScaledAddress_spec (h : tryEmitScaledAddress function i = some emission) :
    ∃ a memory, tryMatchScaledAddress function i = some a ∧
      function.instructions[i + 2]? = some memory ∧
      addressConsumedByAdjacentMemory function (i + 1) = true ∧
      emission = if memory.op = .load then .scaledLoad a else .scaledStore a := by
  unfold tryEmitScaledAddress at h
  split at h
  · rename_i a memory hMatch hM
    split at h
    · rename_i hShape
      simp only [Bool.and_eq_true] at hShape
      exact ⟨a, memory, hMatch, hM, hShape.1, (some.inj h).symm⟩
    · cases h
  · cases h

theorem tryEmit_isAccess (h : tryEmitAddressAdd function i = some emission ∨
    tryEmitScaledAddress function i = some emission) : emission.isAccess = true := by
  rcases h with h | h
  · obtain ⟨_, _, _, _, _, _, rfl⟩ := tryEmitAddressAdd_spec h
    split <;> rfl
  · obtain ⟨_, _, _, _, _, rfl⟩ := tryEmitScaledAddress_spec h
    split <;> rfl

inductive EmitsAt (keepsWord : String → Bool) (function : IRFunction) (i : Nat) : Emission → Prop
  | skip (h : shiftOnlyFeedsScaledAddresses function i = true) : EmitsAt keepsWord function i .skip
  | compareBranch (h : matchesCompareBranchChain function i = true) :
    EmitsAt keepsWord function i (.chain 3)
  | diamond (h : matchesCompareAssignDiamond function i = true) :
    EmitsAt keepsWord function i (.chain 6)
  | addressAdd {emission : Emission} (h : tryEmitAddressAdd function i = some emission) :
    EmitsAt keepsWord function i emission
  | scaledAddress {emission : Emission} (h : tryEmitScaledAddress function i = some emission) :
    EmitsAt keepsWord function i emission
  | castChain (h : matchesCastChain keepsWord function i = true) :
    EmitsAt keepsWord function i (.chain 2)
  | expressionChain (h : matchesExpressionChain function i = true) :
    EmitsAt keepsWord function i (.chain 2)
  | compareBranchZero (h : matchesCompareBranchZero function i = true) :
    EmitsAt keepsWord function i (.chain 2)
  | plain : EmitsAt keepsWord function i .plain

theorem emitAt_emits (keepsWord : String → Bool) (function : IRFunction) (i : Nat) :
    EmitsAt keepsWord function i (emitAt keepsWord function i) := by
  unfold emitAt
  split
  · rename_i h
    exact .skip h
  split
  · rename_i h
    exact .compareBranch h
  split
  · rename_i h
    exact .diamond h
  cases hAdd : tryEmitAddressAdd function i with
  | some emission => exact .addressAdd hAdd
  | none =>
    cases hScaled : tryEmitScaledAddress function i with
    | some emission => exact .scaledAddress hScaled
    | none =>
      dsimp only
      split
      · rename_i h
        exact .castChain h
      split
      · rename_i h
        exact .expressionChain h
      split
      · rename_i h
        exact .compareBranchZero h
      exact .plain

/-! ### The units of the loop -/

theorem emitAt_consumed_pos (keepsWord : String → Bool) (function : IRFunction) (i : Nat) :
    0 < (emitAt keepsWord function i).consumed := by
  cases hCase : emitAt keepsWord function i with
  | chain n =>
    have h := emitAt_emits keepsWord function i
    rw [hCase] at h
    cases h with
    | addressAdd h => cases tryEmit_isAccess (.inl h)
    | scaledAddress h => cases tryEmit_isAccess (.inr h)
    | _ => decide
  | _ => exact Nat.succ_pos _

variable {k : Nat}

theorem mem_emitFrom {rounds : Nat} (h : (k, emission) ∈ emitFrom keepsWord function rounds i) :
    emission = emitAt keepsWord function k ∧ i ≤ k := by
  induction rounds generalizing i with
  | zero => cases h
  | succ rounds ih =>
    rw [emitFrom] at h
    split at h
    · rcases mem_cons.mp h with hEq | hRest
      · cases hEq
        exact ⟨rfl, Nat.le_refl _⟩
      · obtain ⟨hEmission, hLe⟩ := ih hRest
        exact ⟨hEmission, by omega⟩
    · cases h

theorem emitFrom_disjoint {rounds k' : Nat} {emission' : Emission}
    (h : (k, emission) ∈ emitFrom keepsWord function rounds i)
    (h' : (k', emission') ∈ emitFrom keepsWord function rounds i) (hLt : k < k') :
    k + emission.consumed ≤ k' := by
  induction rounds generalizing i with
  | zero => cases h
  | succ rounds ih =>
    rw [emitFrom] at h h'
    split at h
    · rename_i hIn
      rw [if_pos hIn] at h'
      rcases mem_cons.mp h with hEq | hRest
      · cases hEq
        rcases mem_cons.mp h' with hEq' | hRest'
        · cases hEq'
          exact absurd hLt (Nat.lt_irrefl _)
        · exact (mem_emitFrom hRest').2
      · rcases mem_cons.mp h' with hEq' | hRest'
        · cases hEq'
          have hGe := (mem_emitFrom hRest).2
          omega
        · exact ih hRest hRest'
    · cases h

theorem emitFrom_covers {rounds j : Nat} (hRounds : function.instructions.length ≤ rounds + i)
    (hij : i ≤ j) (hj : j < function.instructions.length) :
    ∃ k, (k, emitAt keepsWord function k) ∈ emitFrom keepsWord function rounds i ∧ k ≤ j ∧
      j < k + (emitAt keepsWord function k).consumed := by
  induction rounds generalizing i with
  | zero => omega
  | succ rounds ih =>
    rw [emitFrom, if_pos (by omega : i < function.instructions.length)]
    have hPos := emitAt_consumed_pos keepsWord function i
    by_cases hHere : j < i + (emitAt keepsWord function i).consumed
    · exact ⟨i, mem_cons_self, hij, hHere⟩
    · obtain ⟨k, hMem, hLe, hLt⟩ := ih (by omega) (Nat.le_of_not_lt hHere)
      exact ⟨k, mem_cons_of_mem _ hMem, hLe, hLt⟩

theorem emissionAt_cases (keepsWord : String → Bool) (function : IRFunction) (i : Nat) :
    (emissionAt keepsWord function i = emitAt keepsWord function i ∧
      (i, emitAt keepsWord function i) ∈ emitBinaryFunction keepsWord function) ∨
      (emissionAt keepsWord function i = .plain ∧
        ∀ emission, (i, emission) ∉ emitBinaryFunction keepsWord function) := by
  unfold emissionAt
  cases hLookup : (emitBinaryFunction keepsWord function).lookup i with
  | none =>
    refine Or.inr ⟨rfl, ?_⟩
    intro emission hMem
    have hAll := lookup_eq_none_iff.mp hLookup _ hMem
    simp at hAll
  | some emission =>
    obtain ⟨before, after, hSplit, -⟩ := lookup_eq_some_iff.mp hLookup
    have hMem : (i, emission) ∈ emitBinaryFunction keepsWord function := by
      rw [hSplit]
      exact mem_append_right _ mem_cons_self
    have hEq := (mem_emitFrom hMem).1
    rw [hEq] at hMem
    exact Or.inl ⟨hEq, hMem⟩

theorem shiftOnlyFeeds_of_skip {p : Nat} (h : emissionAt keepsWord function p = .skip) :
    shiftOnlyFeedsScaledAddresses function p = true := by
  have hEmits := emitAt_emits keepsWord function p
  rcases emissionAt_cases keepsWord function p with ⟨hEq, -⟩ | ⟨hPlain, -⟩
  · rw [← hEq, h] at hEmits
    cases hEmits with
    | skip hFeeds => exact hFeeds
    | addressAdd hTry => cases tryEmit_isAccess (.inl hTry)
    | scaledAddress hTry => cases tryEmit_isAccess (.inr hTry)
  · rw [h] at hPlain
    cases hPlain

theorem access_mem (h : (emissionAt keepsWord function k).isAccess = true) :
    emissionAt keepsWord function k = emitAt keepsWord function k ∧
      (k, emitAt keepsWord function k) ∈ emitBinaryFunction keepsWord function := by
  rcases emissionAt_cases keepsWord function k with hStart | ⟨hPlain, -⟩
  · exact hStart
  · rw [hPlain] at h
    cases h

theorem Inside.unique {k' : Nat} (h : Inside keepsWord function k i)
    (h' : Inside keepsWord function k' i) : k = k' := by
  obtain ⟨hAccess, hLt, hEnd⟩ := h
  obtain ⟨hAccess', hLt', hEnd'⟩ := h'
  obtain ⟨hEq, hMem⟩ := access_mem hAccess
  obtain ⟨hEq', hMem'⟩ := access_mem hAccess'
  rw [hEq] at hEnd
  rw [hEq'] at hEnd'
  rcases Nat.lt_trichotomy k k' with hOrder | hSame | hOrder
  · have := emitFrom_disjoint hMem hMem' hOrder
    omega
  · exact hSame
  · have := emitFrom_disjoint hMem' hMem hOrder
    omega

theorem Inside.not_access (h : Inside keepsWord function k i) :
    (emissionAt keepsWord function i).isAccess = false := by
  obtain ⟨hAccess, hLt, hEnd⟩ := h
  obtain ⟨hEq, hMem⟩ := access_mem hAccess
  rw [Bool.eq_false_iff]
  intro hInner
  obtain ⟨-, hMem'⟩ := access_mem hInner
  have := emitFrom_disjoint hMem hMem' hLt
  rw [hEq] at hEnd
  omega

def AddressedBy (memory : IRInstruction) (name : String) : Prop :=
  (memory.op = .load ∧ memory.lhs = .temp name) ∨ (memory.op = .store ∧ memory.dest = .temp name)

/-- The access at `k` swallows the addition at `k` and the memory instruction after it. -/
structure AddAccess (keepsWord : String → Bool) (function : IRFunction) (k : Nat)
    (address memory : IRInstruction) (name : String) : Prop where
  address_at : function.instructions[k]? = some address
  memory_at : function.instructions[k + 1]? = some memory
  add : isAddressAdd address = true
  consumed_at : addressConsumedByAdjacentMemory function k = true
  dest : address.dest = .temp name
  once : functionTempUseCount function name = 1
  addressed : AddressedBy memory name
  emission : emissionAt keepsWord function k =
    if memory.op = .load then .addLoad (tryMatchScaledTempAddress function k address)
    else .addStore (tryMatchScaledTempAddress function k address)

/-- The access at `k` swallows the shift at `k`, the addition and the memory instruction. -/
structure ScaledAccess (keepsWord : String → Bool) (function : IRFunction) (k : Nat)
    (a : ScaledAddress) (shift address memory : IRInstruction) (name : String) : Prop where
  matched : tryMatchScaledAddress function k = some a
  shift_at : function.instructions[k]? = some shift
  address_at : function.instructions[k + 1]? = some address
  memory_at : function.instructions[k + 2]? = some memory
  add : isAddressAdd address = true
  consumed_at : addressConsumedByAdjacentMemory function (k + 1) = true
  dest : address.dest = .temp name
  once : functionTempUseCount function name = 1
  addressed : AddressedBy memory name
  emission : emissionAt keepsWord function k =
    if memory.op = .load then .scaledLoad a else .scaledStore a

theorem access_cases (h : (emissionAt keepsWord function k).isAccess = true) :
    (∃ address memory name, AddAccess keepsWord function k address memory name) ∨
      ∃ a shift address memory name,
        ScaledAccess keepsWord function k a shift address memory name := by
  obtain ⟨hEq, -⟩ := access_mem h
  rw [hEq] at h
  have hEmits := emitAt_emits keepsWord function k
  generalize hEmission : emitAt keepsWord function k = emission at h hEmits
  rw [hEmission] at hEq
  cases hEmits with
  | addressAdd hTry =>
    obtain ⟨address, memory, hA, hM, hAdd, hConsumed, hIf⟩ := tryEmitAddressAdd_spec hTry
    obtain ⟨address', memory', name, hA', hM', hDest, -, hOnce, hUse⟩ :=
      addressConsumed_spec hConsumed
    rw [hA] at hA'
    rw [hM] at hM'
    cases hA'
    cases hM'
    exact Or.inl ⟨address, memory, name, hA, hM, hAdd, hConsumed, hDest, hOnce, hUse, hEq.trans hIf⟩
  | scaledAddress hTry =>
    obtain ⟨a, memory, hMatch, hM, hConsumed, hIf⟩ := tryEmitScaledAddress_spec hTry
    obtain ⟨shift, address, hS, hA, hAdd, -, -, -, -, -⟩ := tryMatchScaledAddress_spec hMatch
    obtain ⟨address', memory', name, hA', hM', hDest, -, hOnce, hUse⟩ :=
      addressConsumed_spec hConsumed
    rw [hA] at hA'
    rw [hM] at hM'
    cases hA'
    cases hM'
    exact Or.inr ⟨a, shift, address, memory, name, hMatch, hS, hA, hM, hAdd, hConsumed, hDest,
      hOnce, hUse, hEq.trans hIf⟩
  | _ => cases h

theorem AddAccess.consumed (h : AddAccess keepsWord function k address memory name) :
    (emissionAt keepsWord function k).consumed = 2 := by
  rw [h.emission]
  split <;> rfl

theorem ScaledAccess.consumed {shift : IRInstruction}
    (h : ScaledAccess keepsWord function k a shift address memory name) :
    (emissionAt keepsWord function k).consumed = 3 := by
  rw [h.emission]
  split <;> rfl

/-! ### Single uses -/

theorem le_sum_of_getElem? {l : List Nat} {n : Nat} (h : l[i]? = some n) : n ≤ l.sum := by
  induction l generalizing i with
  | nil => cases h
  | cons m l ih =>
    rw [sum_cons]
    cases i with
    | zero =>
      cases h
      omega
    | succ i =>
      have := ih h
      omega

theorem add_le_sum_of_getElem? {l : List Nat} {j n m : Nat} (hi : l[i]? = some n)
    (hj : l[j]? = some m) (hLt : i < j) : n + m ≤ l.sum := by
  induction l generalizing i j with
  | nil => cases hi
  | cons k l ih =>
    rw [sum_cons]
    cases j with
    | zero => omega
    | succ j =>
      cases i with
      | zero =>
        cases hi
        have := le_sum_of_getElem? (show l[j]? = some m from hj)
        omega
      | succ i =>
        have := ih (show l[i]? = some n from hi) (show l[j]? = some m from hj) (by omega)
        omega

theorem useCount_le (h : function.instructions[i]? = some c) (name : String) :
    instructionTempUseCount c name ≤ functionTempUseCount function name :=
  le_sum_of_getElem? (by rw [getElem?_map, h]; rfl)

theorem eq_of_used_once {j : Nat} {d : IRInstruction}
    (hOnce : functionTempUseCount function name = 1) (hc : function.instructions[i]? = some c)
    (hUseC : instructionTempUseCount c name ≠ 0) (hd : function.instructions[j]? = some d)
    (hUseD : instructionTempUseCount d name ≠ 0) :
    i = j := by
  have hMapC : (function.instructions.map (instructionTempUseCount · name))[i]? =
      some (instructionTempUseCount c name) := by
    rw [getElem?_map, hc]
    rfl
  have hMapD : (function.instructions.map (instructionTempUseCount · name))[j]? =
      some (instructionTempUseCount d name) := by
    rw [getElem?_map, hd]
    rfl
  rw [functionTempUseCount] at hOnce
  rcases Nat.lt_trichotomy i j with hLt | hEq | hLt
  · have := add_le_sum_of_getElem? hMapC hMapD hLt
    omega
  · exact hEq
  · have := add_le_sum_of_getElem? hMapD hMapC hLt
    omega

theorem useCount_lhs (h : c.lhs = .temp name) : instructionTempUseCount c name ≠ 0 := by
  simp [h]

theorem useCount_rhs (h : c.rhs = .temp name) : instructionTempUseCount c name ≠ 0 := by
  simp [h]

theorem useCount_both (hLhs : c.lhs = .temp name) (hRhs : c.rhs = .temp name) :
    2 ≤ instructionTempUseCount c name := by
  simp only [instructionTempUseCount, operandUsesTemp, hLhs, hRhs, beq_self_eq_true, if_true]
  omega

theorem AddressedBy.useCount (h : AddressedBy memory name) :
    instructionTempUseCount memory name ≠ 0 := by
  rcases h with ⟨-, hLhs⟩ | ⟨hOp, hDest⟩
  · exact useCount_lhs hLhs
  · simp [hOp, hDest]

theorem useCount_of_reads {t : String} (h : IROperand.temp t ∈ c.reads) :
    instructionTempUseCount c t ≠ 0 ∨ (c.op.isKernel = true ∧ c.dest = .temp t) := by
  have hArguments : IROperand.temp t ∈ c.arguments → instructionTempUseCount c t ≠ 0 := by
    intro hMem
    have hPos : 0 < c.arguments.countP (operandUsesTemp · t) :=
      countP_pos_iff.mpr ⟨_, hMem, by simp⟩
    simp only [instructionTempUseCount]
    omega
  unfold IRInstruction.reads at h
  cases hOp : c.op <;> rw [hOp] at h <;>
    simp only [mem_cons, not_mem_nil, or_false] at h
  case store =>
    rcases h with hDest | hLhs | hRhs
    · left
      simp [hOp, ← hDest]
    · exact Or.inl (useCount_lhs hLhs.symm)
    · exact Or.inl (useCount_rhs hRhs.symm)
  case call => exact Or.inl (hArguments h)
  case new => exact Or.inl (useCount_rhs h.symm)
  case callIndirect =>
    rcases h with hLhs | hMem
    · exact Or.inl (useCount_lhs hLhs.symm)
    · exact Or.inl (hArguments hMem)
  case branchZero => exact Or.inl (useCount_lhs h.symm)
  case assign => exact Or.inl (useCount_lhs h.symm)
  case unary => exact Or.inl (useCount_lhs h.symm)
  case cast => exact Or.inl (useCount_lhs h.symm)
  case return_ => exact Or.inl (useCount_lhs h.symm)
  case branchEq => exact Or.inl (h.elim (useCount_lhs ·.symm) (useCount_rhs ·.symm))
  case binary => exact Or.inl (h.elim (useCount_lhs ·.symm) (useCount_rhs ·.symm))
  case load => exact Or.inl (h.elim (useCount_lhs ·.symm) (useCount_rhs ·.symm))
  case rotateAdd => exact Or.inl (h.elim (useCount_lhs ·.symm) (useCount_rhs ·.symm))
  all_goals
    -- a vector kernel
    rcases h with hDest | hLhs | hRhs | hMem
    · exact Or.inr ⟨rfl, hDest.symm⟩
    · exact Or.inl (useCount_lhs hLhs.symm)
    · exact Or.inl (useCount_rhs hRhs.symm)
    · exact Or.inl (hArguments hMem)

end Driver

end Mettle.Codegen
