import Mathlib.Tactic.IntervalCases
import Mettle.Codegen.Peephole
import Mettle.Codegen.SymbolAlias

/-!
# Mettle — scaled-address fusion against the unfused code

The code the driver emits, as a machine over the same states as the IR: a skipped shift
does nothing, a fused access computes its address by itself and writes neither the shift's
temp nor the address's, and everything else is executed as it stands. The unfused run is the
run of the same code without these fusions. Both read a local that shares storage where
`storageOf` has it.

The fusion finds the shift by looking backwards in the text, and reads the storage of the
index symbol at the access. It goes wrong when another definition of the temp reaches the
access, when that storage changes between the shift and the access, when an instruction that
is not fused over a skipped temp reads that temp, and when the addition in front of an access
puts two strings together. `FusionSafe` excludes exactly these.
-/

namespace Mettle.Codegen

open Mettle.IR List Option

/-- An environment whose values are 64-bit words with the integer operations of the
back end. -/
structure WordMachine (M : Type) extends Machine (BitVec 64) M where
  int_eq : ∀ n, int n = BitVec.ofInt 64 n
  add_eq : ∀ a b, binary "+" 0 a b = some (a + b)
  shl_eq : ∀ (a : BitVec 64) (k : Nat), k ≤ 3 → binary "<<" 0 a (BitVec.ofInt 64 k) = some (a <<< k)

-- ---
-- The emitted code
-- ---

section Emitted

variable {M : Type} (machine : WordMachine M) (aliases : AliasTable) (keepsWord : String → Bool)
  (function : IRFunction)

/-- `lea rax, [base + index * scale]`. -/
def emitScaledAddress (e : IRState (BitVec 64) M) (a : ScaledAddress) : Option (BitVec 64) :=
  match machine.value e a.base, machine.value e a.index with
  | some base, some index => some (base + index * BitVec.ofNat 64 a.scale)
  | _, _ => none

/-- `code_generator_binary_emit_address_add_to_rax`: an addition of words, whatever is added. -/
def emitAddressAdd (e : IRState (BitVec 64) M) (address : IRInstruction) : Option (BitVec 64) :=
  match machine.value e address.lhs, machine.value e address.rhs with
  | some a, some b => some (a + b)
  | _, _ => none

def emitAddress (e : IRState (BitVec 64) M) (address : IRInstruction) :
    Option ScaledAddress → Option (BitVec 64)
  | some a => emitScaledAddress machine e a
  | none => emitAddressAdd machine e address

/-- The address of a fused access, in a state that has the operands where they are read. -/
def fusedAddress (e : IRState (BitVec 64) M) : Emission → Option (BitVec 64)
  | .addLoad scaled | .addStore scaled =>
    match function.instructions[e.pc]? with
    | some address => emitAddress machine e address scaled
    | none => none
  | .scaledLoad a | .scaledStore a => emitScaledAddress machine e a
  | _ => none

/-- The load or store at the end of a fused access. -/
def accessMemory (e : IRState (BitVec 64) M) (memory : IRInstruction) (address : BitVec 64) :
    Outcome (BitVec 64) M :=
  match memory.op with
  | .load =>
    match machine.value e memory.rhs with
    | none => .stuck e
    | some size =>
      machine.finish e memory.dest (machine.load address size memory.floatWidth e.memory)
  | _ =>
    match machine.value e memory.lhs, machine.value e memory.rhs with
    | some v, some size =>
      match machine.store address v size memory.floatWidth e.memory with
      | none => .stuck e
      | some memory => .running { e with memory }.next
    | _, _ => .stuck e

/-- One unit of the emitted code. -/
def emittedStep (e : IRState (BitVec 64) M) : Outcome (BitVec 64) M :=
  let emission := emissionAt keepsWord function e.pc
  match emission with
  | .skip => .running e.next
  | .chain _ | .plain => aliasedStep machine.toMachine aliases function.instructions e
  | _ =>
    -- the memory instruction is the last one of the access
    let j := e.pc + emission.consumed - 1
    let shared := shareStorage machine.toMachine aliases e
    match function.instructions[j]?, fusedAddress machine function shared emission with
    | some memory, some address => accessMemory machine { shared with pc := j } memory address
    | _, _ => .stuck e

/-- At most `n` units. -/
def emittedRun : Nat → Outcome (BitVec 64) M → Outcome (BitVec 64) M
  | n + 1, .running e => emittedRun n (emittedStep machine aliases keepsWord function e)
  | _, outcome => outcome

end Emitted

-- ---
-- When the fusion is sound
-- ---

/-- The inputs on which the fusion does not go wrong. -/
structure FusionSafe (resident : String → Bool) (aliases : AliasTable) (function : IRFunction) :
    Prop where
  -- on every way to a matched address the shift that was found is the last one to write the
  -- temp, and the storage of the index is not touched after it
  reaching : ∀ (i : Nat) (address : IRInstruction) (a : ScaledAddress),
    function.instructions[i]? = some address →
    addressConsumedByAdjacentMemory function i = true →
    tryMatchScaledTempAddress function i address = some a →
    ∀ path, Walk function.instructions path i →
      ∃ later earlier, path = later ++ a.shift :: earlier ∧
        ∀ q ∈ later, ∀ c, function.instructions[q]? = some c →
          Keeps resident c (.temp a.scaled) ∧ Keeps resident c (storageOperand aliases a.index)
  -- an instruction that uses the temp of a skipped shift is an addition that is matched with
  -- this temp and another base
  matched : ∀ (p : Nat) (shift : IRInstruction) (name : String) (i : Nat) (c : IRInstruction),
    shiftOnlyFeedsScaledAddresses function p = true →
    function.instructions[p]? = some shift → shift.dest = .temp name →
    function.instructions[i]? = some c → instructionTempUseCount c name ≠ 0 →
    ∃ a, tryMatchScaledTempAddress function i c = some a ∧ a.scaled = name ∧ a.base ≠ .temp name
  -- and no fusion that starts one instruction earlier swallows it
  unswallowed : ∀ (p : Nat) (shift : IRInstruction) (name : String) (i : Nat) (c : IRInstruction),
    shiftOnlyFeedsScaledAddresses function p = true →
    function.instructions[p]? = some shift → shift.dest = .temp name →
    function.instructions[i + 1]? = some c → instructionTempUseCount c name ≠ 0 →
    matchesExpressionChain function i = false ∧ tryMatchScaledAddress function i = none
  -- a vector kernel does not have the temp of a binary instruction as its destination
  kernels : ∀ (i : Nat) (c : IRInstruction) (j : Nat) (d : IRInstruction),
    function.instructions[i]? = some c → c.op.isKernel = true →
    function.instructions[j]? = some d → d.op = .binary → isTemp d.dest = true → c.dest ≠ d.dest
  -- an address is not a string that is put together
  concatenations : ∀ (i : Nat) (address : IRInstruction), function.instructions[i]? = some address →
    isAddressAdd address = true → addressConsumedByAdjacentMemory function i = true →
    address.astRef = false
  -- the access widths are ones the code generator accepts
  sizes : ∀ (i : Nat) (c : IRInstruction), function.instructions[i]? = some c →
    c.op = .load ∨ c.op = .store →
    getAccessSize c.rhs > 0

/-- The emitted code does not write the temp at every place where the IR does. -/
def Unmaterialised (keepsWord : String → Bool) (function : IRFunction) (t : String) : Prop :=
  ∃ i c, function.instructions[i]? = some c ∧ c.op = .binary ∧ c.dest = .temp t ∧
    (emissionAt keepsWord function i = .skip ∨
      (emissionAt keepsWord function i).isAccess = true ∨ ∃ k, Inside keepsWord function k i)

/-- A place where the emitted code can stand: not in the middle of an access. -/
def Boundary (keepsWord : String → Bool) (function : IRFunction) (i : Nat) : Prop :=
  ∀ k, ¬ Inside keepsWord function k i

variable {k : Nat} {t name : String} {keepsWord : String → Bool} {function : IRFunction}
  {address c memory shift : IRInstruction}

section Uses

variable {resident : String → Bool}

variable {i : Nat}

theorem access_temp (hAccess : (emissionAt keepsWord function k).isAccess = true)
    (hIn : i = k ∨ Inside keepsWord function k i) (hc : function.instructions[i]? = some c)
    (hOp : c.op = .binary) (hDest : c.dest = .temp t) :
    Inside keepsWord function k (i + 1) ∧ functionTempUseCount function t = 1 ∧
      ∃ d, function.instructions[i + 1]? = some d ∧ instructionTempUseCount d t ≠ 0 := by
  have hMemoryOp : ∀ {memory name}, AddressedBy memory name → memory.op ≠ .binary := by
    intro memory name h
    rcases h with ⟨h, -⟩ | ⟨h, -⟩ <;> rw [h] <;> decide
  rcases access_cases hAccess with ⟨address, memory, name, h⟩ | ⟨a, shift, address, memory, name, h⟩
  · have hConsumed := h.consumed
    have hi : i = k := by
      rcases hIn with rfl | ⟨-, hLt, hEnd⟩
      · rfl
      · have hMem : i = k + 1 := by omega
        rw [hMem, h.memory_at] at hc
        cases hc
        exact absurd hOp (hMemoryOp h.addressed)
    subst hi
    rw [h.address_at] at hc
    cases hc
    have hName : name = t := by
      rw [h.dest] at hDest
      cases hDest
      rfl
    subst hName
    exact ⟨⟨hAccess, by omega, by omega⟩, h.once, memory, h.memory_at, h.addressed.useCount⟩
  · have hConsumed := h.consumed
    obtain ⟨shift', address', hS, hA, -, hShiftDest, -, -, hOnce, hParts⟩ :=
      tryMatchScaledAddress_spec h.matched
    have hi : i = k ∨ i = k + 1 := by
      rcases hIn with rfl | ⟨-, hLt, hEnd⟩
      · exact Or.inl rfl
      · by_cases hMem : i = k + 2
        · rw [hMem, h.memory_at] at hc
          cases hc
          exact absurd hOp (hMemoryOp h.addressed)
        · omega
    rcases hi with rfl | rfl
    · -- the shift: its temp is an operand of the addition
      rw [hS] at hc
      cases hc
      have hName : a.scaled = t := by
        rw [hShiftDest] at hDest
        cases hDest
        rfl
      rw [← hName]
      refine ⟨⟨hAccess, by omega, by omega⟩, hOnce, address', hA, ?_⟩
      rcases hParts with ⟨hUse, -⟩ | ⟨hUse, -⟩
      · exact useCount_lhs hUse
      · exact useCount_rhs hUse
    · -- the addition: its temp is the address
      rw [h.address_at] at hc
      cases hc
      have hName : name = t := by
        rw [h.dest] at hDest
        cases hDest
        rfl
      subst hName
      exact ⟨⟨hAccess, by omega, by omega⟩, h.once, memory, h.memory_at, h.addressed.useCount⟩

theorem unmaterialised_use (h : Unmaterialised keepsWord function t)
    (hc : function.instructions[i]? = some c) (hUse : instructionTempUseCount c t ≠ 0) :
    (∃ p shift, emissionAt keepsWord function p = .skip ∧
      function.instructions[p]? = some shift ∧ shift.dest = .temp t) ∨
      ∃ k p d, Inside keepsWord function k i ∧ i = p + 1 ∧ function.instructions[p]? = some d ∧
        d.dest = .temp t ∧ functionTempUseCount function t = 1 := by
  obtain ⟨p, d, hd, hOp, hDest, hWhy⟩ := h
  have hAccessCase : ∀ k, (emissionAt keepsWord function k).isAccess = true →
      (p = k ∨ Inside keepsWord function k p) →
      ∃ k p d, Inside keepsWord function k i ∧ i = p + 1 ∧ function.instructions[p]? = some d ∧
        d.dest = .temp t ∧ functionTempUseCount function t = 1 := by
    intro k hAccess hIn
    obtain ⟨hInside, hOnce, u, hu, hUseU⟩ := access_temp hAccess hIn hd hOp hDest
    have hEq : i = p + 1 := eq_of_used_once hOnce hc hUse hu hUseU
    rw [← hEq] at hInside
    exact ⟨k, p, d, hInside, hEq, hd, hDest, hOnce⟩
  rcases hWhy with hSkip | hAccess | ⟨k, hInside⟩
  · exact Or.inl ⟨p, d, hSkip, hd, hDest⟩
  · exact Or.inr (hAccessCase p hAccess (Or.inl rfl))
  · exact Or.inr (hAccessCase k hInside.1 (Or.inr hInside))

theorem swallowed_add (hc : function.instructions[i]? = some c) (hAdd : isAddressAdd c = true)
    (hLt : k < i) (hEnd : i < k + (emitAt keepsWord function k).consumed) :
    i = k + 1 ∧ (matchesExpressionChain function k = true ∨
      ∃ a, tryMatchScaledAddress function k = some a) := by
  obtain ⟨hOp, hFloat, hText, -⟩ := isAddressAdd_spec hAdd
  have hNoOp : ∀ {j op d}, i = j → function.instructions[j]? = some d → (d.op == op) = true →
      op ≠ .binary → False := by
    rintro j op d rfl hd hBeq hNe
    rw [hc] at hd
    cases hd
    rw [beq_iff_eq, hOp] at hBeq
    exact hNe hBeq.symm
  have hNoCompare : ∀ {j d}, i = j → function.instructions[j]? = some d →
      isCompareOperator d.text = true → False := by
    rintro j d rfl hd hCompare
    rw [hc] at hd
    cases hd
    rw [hText] at hCompare
    exact absurd hCompare (by decide)
  have hEmits := emitAt_emits keepsWord function k
  generalize emitAt keepsWord function k = emission at hEmits hEnd
  cases hEmits with
  | skip =>
    simp only [Emission.consumed] at hEnd
    omega
  | plain =>
    simp only [Emission.consumed] at hEnd
    omega
  | compareBranch h =>
    exfalso
    simp only [Emission.consumed] at hEnd
    unfold matchesCompareBranchChain at h
    split at h
    · rename_i producer compare branch hP hC hB
      simp only [Bool.and_eq_true] at h
      rcases (by omega : i = k + 1 ∨ i = k + 2) with hi | hi
      · exact hNoCompare hi hC h.1.1.1.1.2
      · exact hNoOp hi hB h.1.1.1.2 (by decide)
    · cases h
  | diamond h =>
    exfalso
    simp only [Emission.consumed] at hEnd
    unfold matchesCompareAssignDiamond at h
    split at h
    · rename_i compare branch assign jump falseLabel endLabel hC hB hA hJ hF hE
      simp only [Bool.and_eq_true] at h
      rcases (by omega : i = k + 1 ∨ i = k + 2 ∨ i = k + 3 ∨ i = k + 4 ∨ i = k + 5) with
        hi | hi | hi | hi | hi
      · exact hNoOp hi hB h.1.1.1.1.1.1.1.1.1.1.1.1.1.2 (by decide)
      · exact hNoOp hi hA h.1.1.1.1.1.1.1.1.1.1.2 (by decide)
      · exact hNoOp hi hJ h.1.1.1.1.1.1.1.2 (by decide)
      · exact hNoOp hi hF h.1.1.1.1.1.2 (by decide)
      · exact hNoOp hi hE h.1.1.1.1.2 (by decide)
    · cases h
  | castChain h =>
    exfalso
    simp only [Emission.consumed] at hEnd
    unfold matchesCastChain at h
    split at h
    · rename_i producer cast hP hC
      simp only [Bool.and_eq_true] at h
      exact hNoOp (by omega) hC h.1.1.1.2 (by decide)
    · cases h
  | compareBranchZero h =>
    exfalso
    simp only [Emission.consumed] at hEnd
    unfold matchesCompareBranchZero at h
    split at h
    · rename_i compare branch hC hB
      simp only [Bool.and_eq_true] at h
      exact hNoOp (by omega) hB h.1.1.2 (by decide)
    · cases h
  | expressionChain h =>
    simp only [Emission.consumed] at hEnd
    exact ⟨by omega, Or.inl h⟩
  | addressAdd h =>
    exfalso
    obtain ⟨address, memory, -, hM, -, hConsumed, hIf⟩ := tryEmitAddressAdd_spec h
    obtain ⟨_, memory', _, _, hM', -, -, -, hUse⟩ := addressConsumed_spec hConsumed
    have hi : i = k + 1 := by
      split at hIf <;> rw [hIf] at hEnd <;> simp only [Emission.consumed] at hEnd <;> omega
    rcases hUse with ⟨hMemOp, -⟩ | ⟨hMemOp, -⟩
    · exact hNoOp hi hM' (beq_iff_eq.mpr hMemOp) (by decide)
    · exact hNoOp hi hM' (beq_iff_eq.mpr hMemOp) (by decide)
  | scaledAddress h =>
    obtain ⟨a, memory, hMatch, -, hConsumed, hIf⟩ := tryEmitScaledAddress_spec h
    obtain ⟨_, memory', _, _, hM', -, -, -, hUse⟩ := addressConsumed_spec hConsumed
    have hi : i = k + 1 ∨ i = k + 2 := by
      split at hIf <;> rw [hIf] at hEnd <;> simp only [Emission.consumed] at hEnd <;> omega
    rcases hi with hi | hi
    · exact ⟨hi, Or.inr ⟨a, hMatch⟩⟩
    · exfalso
      rcases hUse with ⟨hMemOp, -⟩ | ⟨hMemOp, -⟩
      · exact hNoOp hi hM' (beq_iff_eq.mpr hMemOp) (by decide)
      · exact hNoOp hi hM' (beq_iff_eq.mpr hMemOp) (by decide)

theorem emitAt_address (hA : function.instructions[i]? = some address)
    (hAdd : isAddressAdd address = true)
    (hConsumed : addressConsumedByAdjacentMemory function i = true)
    (hSizes : ∀ (i : Nat) (c : IRInstruction), function.instructions[i]? = some c →
      c.op = .load ∨ c.op = .store → getAccessSize c.rhs > 0) :
    (emitAt keepsWord function i).isAccess = true := by
  obtain ⟨hOp, hFloat, hText, -⟩ := isAddressAdd_spec hAdd
  obtain ⟨address', memory, name, hA', hM, hDest, -, hOnce, hUse⟩ := addressConsumed_spec hConsumed
  have hMemOp : memory.op = .load ∨ memory.op = .store := by
    rcases hUse with ⟨h, -⟩ | ⟨h, -⟩
    · exact Or.inl h
    · exact Or.inr h
  have hNoSkip : shiftOnlyFeedsScaledAddresses function i = false := by
    rw [Bool.eq_false_iff]
    intro hSkip
    obtain ⟨shift, _, scale, hS, -, -, hScale, -⟩ := shiftOnlyFeeds_spec hSkip
    rw [hA] at hS
    cases hS
    have hShl := (shiftScale_spec hScale).2.2.1
    rw [hText] at hShl
    exact absurd hShl (by decide)
  have hNoBranch : matchesCompareBranchChain function i = false := by
    rw [Bool.eq_false_iff]
    intro hChain
    unfold matchesCompareBranchChain at hChain
    split at hChain
    · rename_i producer compare branch _ hC _
      rw [hM] at hC
      cases hC
      simp only [Bool.and_eq_true, isSingleUseBinary, beq_iff_eq] at hChain
      have hBinary := hChain.1.1.1.1.1.2.1.1
      rcases hMemOp with h | h <;> rw [h] at hBinary <;> cases hBinary
    · cases hChain
  have hNoDiamond : matchesCompareAssignDiamond function i = false := by
    rw [Bool.eq_false_iff]
    intro hDiamond
    unfold matchesCompareAssignDiamond at hDiamond
    split at hDiamond
    · rename_i compare branch assign jump falseLabel endLabel hC _ _ _ _ _
      rw [hA] at hC
      cases hC
      simp only [Bool.and_eq_true, hText] at hDiamond
      exact absurd hDiamond.1.1.1.1.1.1.1.1.1.1.1.1.1.1.2 (by decide)
    · cases hDiamond
  have hTry : ∃ emission, tryEmitAddressAdd function i = some emission ∧
      emission.isAccess = true := by
    unfold tryEmitAddressAdd
    rw [hA, hM]
    have hSize : getAccessSize memory.rhs > 0 := hSizes _ _ hM hMemOp
    simp only [hAdd, hConsumed, hSize, decide_true, Bool.and_self, if_true]
    refine ⟨_, rfl, ?_⟩
    split <;> rfl
  obtain ⟨emission, hEq, hAccess⟩ := hTry
  unfold emitAt
  rw [hNoSkip, hNoBranch, hNoDiamond, hEq]
  simpa using hAccess

section

variable {aliases : AliasTable} (hSafe : FusionSafe resident aliases function)
include hSafe

theorem skipped_use {p : Nat}
    (hSkip : emissionAt keepsWord function p = .skip) (hp : function.instructions[p]? = some shift)
    (hDest : shift.dest = .temp t) (hc : function.instructions[i]? = some c)
    (hUse : instructionTempUseCount c t ≠ 0) :
    (emissionAt keepsWord function i).isAccess = true ∧ isAddressAdd c = true ∧
      ∃ a, tryMatchScaledTempAddress function i c = some a ∧ a.scaled = t ∧ a.base ≠ .temp t := by
  have hFeeds := shiftOnlyFeeds_of_skip hSkip
  obtain ⟨shift', name, scale, hp', hDest', -, -, hUses⟩ := shiftOnlyFeeds_spec hFeeds
  rw [hp] at hp'
  cases hp'
  rw [hDest] at hDest'
  cases hDest'
  obtain ⟨hAdd, hConsumed⟩ := hUses i c hc hUse
  refine ⟨?_, hAdd, hSafe.matched p shift t i c hFeeds hp hDest hc hUse⟩
  have hAccess : (emitAt keepsWord function i).isAccess = true :=
    emitAt_address hc hAdd hConsumed hSafe.sizes
  -- the addition starts a unit: nothing that starts earlier swallows it
  have hLen : i < function.instructions.length := (List.getElem_of_getElem? hc).1
  rcases emissionAt_cases keepsWord function i with ⟨h, -⟩ | ⟨-, hNone⟩
  · rw [h]
    exact hAccess
  · exfalso
    have hCovered : ∃ k, (k, emitAt keepsWord function k) ∈ emitBinaryFunction keepsWord function ∧
        k ≤ i ∧ i < k + (emitAt keepsWord function k).consumed :=
      emitFrom_covers (Nat.le_refl function.instructions.length) (Nat.zero_le i) hLen
    obtain ⟨k, hMem, hLe, hEnd⟩ := hCovered
    have hLt : k < i := by
      rcases Nat.lt_or_eq_of_le hLe with h | h
      · exact h
      · rw [h] at hMem
        exact absurd hMem (hNone _)
    obtain ⟨hi, hWhy⟩ := swallowed_add hc hAdd hLt hEnd
    rw [hi] at hc
    obtain ⟨hNoChain, hNoScaled⟩ := hSafe.unswallowed p shift t k c hFeeds hp hDest hc hUse
    rcases hWhy with hChain | ⟨a, ha⟩
    · rw [hNoChain] at hChain
      cases hChain
    · rw [hNoScaled] at ha
      cases ha

theorem reads_live (hBoundary : Boundary keepsWord function i)
    (hPlain : (emissionAt keepsWord function i).isAccess = false)
    (hc : function.instructions[i]? = some c) :
    ∀ operand ∈ c.reads, ∀ t, operand = .temp t → ¬ Unmaterialised keepsWord function t := by
  rintro operand hMem t rfl hDead
  rcases useCount_of_reads hMem with hUse | ⟨hKernel, hDest⟩
  · rcases unmaterialised_use hDead hc hUse with ⟨p, shift, hSkip, hp, hDest⟩ | ⟨k, -, -, hIn, -⟩
    · have hAccess := (skipped_use hSafe hSkip hp hDest hc hUse).1
      rw [hPlain] at hAccess
      cases hAccess
    · exact hBoundary k hIn
  · obtain ⟨j, d, hd, hOp, hDestD, -⟩ := hDead
    refine hSafe.kernels i c j d hc hKernel hd hOp ?_ ?_
    · rw [hDestD]
      rfl
    · rw [hDest, hDestD]

theorem memory_live {j : Nat}
    (hA : function.instructions[j]? = some address) (hDest : address.dest = .temp name)
    (hM : function.instructions[j + 1]? = some memory) (hUse : AddressedBy memory name)
    (hOnce : functionTempUseCount function name = 1) {operand : IROperand}
    (hOperand : (memory.op = .load ∧ operand = memory.rhs) ∨ (memory.op = .store ∧ (operand =
      memory.lhs ∨ operand = memory.rhs))) :
    ∀ t, operand = .temp t → ¬ Unmaterialised keepsWord function t := by
  rintro t rfl hDead
  have hUseT : instructionTempUseCount memory t ≠ 0 := by
    rcases hOperand with ⟨-, h⟩ | ⟨-, h | h⟩
    · exact useCount_rhs h.symm
    · exact useCount_lhs h.symm
    · exact useCount_rhs h.symm
  rcases unmaterialised_use hDead hM hUseT with ⟨p, shift, hSkip, hp, hDestS⟩ |
    ⟨k', p, d, hIn', hp, hd, hDestD, -⟩
  · -- a skipped temp is used by additions only
    obtain ⟨-, hAdd, -⟩ := skipped_use hSafe hSkip hp hDestS hM hUseT
    have hOp := (isAddressAdd_spec hAdd).1
    rcases hUse with ⟨h, -⟩ | ⟨h, -⟩ <;> rw [h] at hOp <;> cases hOp
  · -- the temp of the instruction before is the address, which is used once
    have hpj : p = j := by omega
    rw [hpj, hA] at hd
    cases hd
    rw [hDest] at hDestD
    cases hDestD
    have hLe := useCount_le hM name
    rcases hUse with ⟨hLoad, hLhs⟩ | ⟨hStore, hDestM⟩
    · rcases hOperand with ⟨-, hRhs⟩ | ⟨hStore, -⟩
      · have := useCount_both hLhs hRhs.symm
        omega
      · rw [hLoad] at hStore
        cases hStore
    · rcases hOperand with ⟨hLoad, -⟩ | ⟨-, hSide⟩
      · rw [hStore] at hLoad
        cases hLoad
      · have hTwo : 2 ≤ instructionTempUseCount memory name := by
          simp only [instructionTempUseCount, operandUsesTemp, hStore, hDestM]
          rcases hSide with h | h <;> rw [← h] <;> simp only [beq_self_eq_true, and_self, if_true] <;>
            omega
        omega

theorem address_live (hBoundary : Boundary keepsWord function i)
    (hc : function.instructions[i]? = some c) (hUse : instructionTempUseCount c t ≠ 0)
    (hOther : ∀ a, tryMatchScaledTempAddress function i c = some a → a.base = .temp t) :
    ¬ Unmaterialised keepsWord function t := by
  intro hDead
  rcases unmaterialised_use hDead hc hUse with ⟨p, shift, hSkip, hp, hDest⟩ | ⟨k, -, -, hIn, -⟩
  · obtain ⟨-, -, a, hMatch, -, hBase⟩ := skipped_use hSafe hSkip hp hDest hc hUse
    exact hBase (hOther a hMatch)
  · exact hBoundary k hIn

end

end Uses

-- ---
-- The units of the emitted code
-- ---

variable {path : List Nat}

section Units

variable {M : Type} {machine : WordMachine M} {aliases : AliasTable}

theorem shl_eq_mul (x : BitVec 64) (k : Nat) (hk : k ≤ 3) :
    x <<< k = x * BitVec.ofNat 64 (2 ^ k) := by
  apply BitVec.eq_of_toNat_eq
  rw [BitVec.toNat_shiftLeft, BitVec.toNat_mul, BitVec.toNat_ofNat, Nat.shiftLeft_eq]
  have hPow : 2 ^ k % 2 ^ 64 = 2 ^ k :=
    Nat.mod_eq_of_lt (Nat.pow_lt_pow_right (by decide) (by omega))
  rw [hPow]

variable {s : IRState (BitVec 64) M}

theorem step_binary {s' : IRState (BitVec 64) M}
    (hc : function.instructions[s.pc]? = some c) (hOp : c.op = .binary)
    (h : aliasedStep machine.toMachine aliases function.instructions s = .running s') :
    ∃ v, machine.compute (shareStorage machine.toMachine aliases s) c = some v ∧
      s' = (machine.write (shareStorage machine.toMachine aliases s) c.dest v).next := by
  obtain ⟨c', hc', ⟨hElided, -⟩ | ⟨-, hExec⟩⟩ := aliasedStep_running h
  · rw [hc] at hc'
    cases hc'
    rw [isElidedCopy_assign hElided] at hOp
    cases hOp
  · rw [hc] at hc'
    cases hc'
    rw [Machine.execute, hOp] at hExec
    exact finish_running hExec

/-- The state behind a binary instruction that writes a temp. -/
theorem shareStorage_next_temp (hOk : TableOk aliases) (s : IRState (BitVec 64) M) (t : String)
    (v : BitVec 64) :
    shareStorage machine.toMachine aliases
        (machine.write (shareStorage machine.toMachine aliases s) (.temp t) v).next =
      (machine.write (shareStorage machine.toMachine aliases s) (.temp t) v).next := by
  show (machine.write (shareStorage machine.toMachine aliases
    (shareStorage machine.toMachine aliases s)) (.temp t) v).next = _
  rw [shareStorage_idem hOk]

theorem compute_add {v : BitVec 64} (hAdd : isAddressAdd c = true) (hNumeric : c.astRef = false)
    (h : machine.compute s c = some v) :
    ∃ a b, machine.value s c.lhs = some a ∧ machine.value s c.rhs = some b ∧ v = a + b := by
  obtain ⟨hOp, hFloat, hText, -⟩ := isAddressAdd_spec hAdd
  rw [Machine.compute, hOp, hText] at h
  dsimp only at h
  have hWidth : c.floatWidth = 0 := by rw [IRInstruction.floatWidth, hFloat]; rfl
  split at h
  · rename_i op a b hSome hL hR
    cases hSome
    rw [Machine.operate_plain _ hNumeric, hWidth, machine.add_eq] at h
    exact ⟨a, b, hL, hR, (some.inj h).symm⟩
  · cases h

theorem compute_shift {v : BitVec 64} {scale : Nat} (hScale : shiftScale c = some scale)
    (h : machine.compute s c = some v) :
    ∃ x, machine.value s c.lhs = some x ∧ v = x * BitVec.ofNat 64 scale := by
  obtain ⟨hOp, hFloat, hText, k, hk, hRhs, hEq⟩ := shiftScale_spec hScale
  rw [Machine.compute, hOp, hText] at h
  dsimp only at h
  have hWidth : c.floatWidth = 0 := by rw [IRInstruction.floatWidth, hFloat]; rfl
  have hAmount : machine.value s c.rhs = some (BitVec.ofInt 64 k) := by
    rw [hRhs, Machine.value, machine.int_eq]
  split at h
  · rename_i op a b hSome hL hR
    cases hSome
    rw [hAmount] at hR
    rw [← some.inj hR, Machine.operate_of_ne _ (by decide), hWidth, machine.shl_eq a k hk] at h
    refine ⟨a, hL, ?_⟩
    rw [← some.inj h, hEq, shl_eq_mul a k hk]
  · cases h

/-- **The scaled temp.** -/
theorem scaled_value (hShares : SharesPrivate machine.toMachine aliases)
    (hSafe : FusionSafe machine.resident aliases function) {start : IRState (BitVec 64) M}
    {a : ScaledAddress} (hStart : start.pc = 0)
    (hReach : AliasedReaches machine.toMachine aliases function.instructions start path s)
    (hA : function.instructions[s.pc]? = some address)
    (hConsumed : addressConsumedByAdjacentMemory function s.pc = true)
    (hMatch : tryMatchScaledTempAddress function s.pc address = some a) :
    ∃ x, machine.value (shareStorage machine.toMachine aliases s) a.index = some x ∧
      machine.value s (.temp a.scaled) = some (x * BitVec.ofNat 64 a.scale) := by
  obtain ⟨-, -, hSymbol, shift, hShift, hDest, hIndex, hScale⟩ :=
    tryMatchScaledTempAddress_spec hMatch
  obtain ⟨later, earlier, rfl, hKeep⟩ :=
    hSafe.reaching _ _ _ hA hConsumed hMatch path (hReach.walk hStart)
  obtain ⟨before, after, -, hPc, hStep, hKept⟩ := hReach.kept hShares
  rw [← hPc] at hShift
  obtain ⟨v, hCompute, rfl⟩ := step_binary hShift (shiftScale_spec hScale).1 hStep
  obtain ⟨x, hx, rfl⟩ := compute_shift hScale hCompute
  have hOwn := storageOperand_idem hShares.ok a.index
  have hNe : storageOperand aliases a.index ≠ .temp a.scaled := by
    intro hEq
    cases hCase : a.index with
    | symbol y =>
      rw [hCase] at hEq
      cases hEq
    | _ =>
      rw [hCase] at hSymbol
      cases hSymbol
  refine ⟨x, ?_, ?_⟩
  · rw [value_shareStorage hShares, hKept _ hOwn fun q hq c hc => (hKeep q hq c hc).2,
      machine.value_next, hDest, machine.value_write_of_ne hNe, value_shareStorage hShares, hOwn,
      ← value_shareStorage hShares, ← hIndex, hx]
  · rw [hKept _ rfl fun q hq c hc => (hKeep q hq c hc).1, machine.value_next, hDest,
      machine.value_write_temp]

/-- The operand that a load or store takes its address from. -/
def accessAddress (memory : IRInstruction) : IROperand :=
  if memory.op = .load then memory.lhs else memory.dest

theorem AddressedBy.accessAddress (h : AddressedBy memory name) :
    accessAddress memory = .temp name := by
  rcases h with ⟨hOp, hLhs⟩ | ⟨hOp, hDest⟩
  · rw [Codegen.accessAddress, if_pos hOp, hLhs]
  · rw [Codegen.accessAddress, if_neg (by rw [hOp]; decide), hDest]

variable {e : IRState (BitVec 64) M}

theorem accessMemory_agree {dead : String → Prop} {address : BitVec 64} (h : AgreeOff dead e s)
    (hUse : AddressedBy memory name) (hAddress : machine.value s (.temp name) = some address) (hLive
      : ∀ operand, (memory.op = .load ∧ operand = memory.rhs) ∨ (memory.op = .store ∧ (operand =
      memory.lhs ∨ operand = memory.rhs)) → ∀ t, operand = .temp t → ¬ dead t) :
    Outcome.AgreeOff dead (accessMemory machine e memory address)
      (machine.execute function.instructions s memory) := by
  rcases hUse with ⟨hOp, hLhs⟩ | ⟨hOp, hDest⟩
  · have hSize : machine.value e memory.rhs = machine.value s memory.rhs :=
      h.value (hLive _ (Or.inl ⟨hOp, rfl⟩))
    unfold accessMemory Machine.execute
    rw [hOp]
    rw [hLhs, hAddress, hSize, h.memory]
    cases machine.value s memory.rhs with
    | none => exact .stuck
    | some size => exact finish_agree h _ _
  · have hValue : machine.value e memory.lhs = machine.value s memory.lhs :=
      h.value (hLive _ (Or.inr ⟨hOp, Or.inl rfl⟩))
    have hSize : machine.value e memory.rhs = machine.value s memory.rhs :=
      h.value (hLive _ (Or.inr ⟨hOp, Or.inr rfl⟩))
    unfold accessMemory Machine.execute
    rw [hOp]
    rw [hDest, hAddress, hValue, hSize, h.memory]
    cases machine.value s memory.lhs with
    | none => exact .stuck
    | some v =>
      cases machine.value s memory.rhs with
      | none => exact .stuck
      | some size =>
        dsimp only
        cases machine.store address v size memory.floatWidth s.memory with
        | none => exact .stuck
        | some m => exact .running (AgreeOff.next ⟨h.pc, h.locals, rfl, h.trace, h.temps⟩)

/-- A load or a store is not a copy. -/
theorem aliasedStep_memory (hUse : AddressedBy memory name)
    (hM : function.instructions[s.pc]? = some memory) :
    aliasedStep machine.toMachine aliases function.instructions s =
      machine.execute function.instructions (shareStorage machine.toMachine aliases s) memory := by
  have hNot : isElidedCopy aliases memory = false := by
    rw [Bool.eq_false_iff]
    intro hElided
    have hOp := isElidedCopy_assign hElided
    rcases hUse with ⟨h, -⟩ | ⟨h, -⟩ <;> rw [h] at hOp <;> cases hOp
  rw [aliasedStep, hM]
  dsimp only
  rw [hNot, if_neg Bool.false_ne_true]

/-- The states agree where operands are read, but for the temps that the emitted code does not
write. -/
def AgreeStored (machine : WordMachine M) (aliases : AliasTable) (keepsWord : String → Bool)
    (function : IRFunction) (e s : IRState (BitVec 64) M) : Prop :=
  AgreeOff (Unmaterialised keepsWord function) (shareStorage machine.toMachine aliases e)
    (shareStorage machine.toMachine aliases s)

/-- States that agree do so in the storage too. -/
theorem agreeOff_share {dead : String → Prop} (h : AgreeOff dead e s) :
    AgreeOff dead (shareStorage machine.toMachine aliases e)
      (shareStorage machine.toMachine aliases s) := by
  refine ⟨h.pc, ?_, h.memory, h.trace, h.temps⟩
  funext x
  simp only [shareStorage, Machine.symbolValue, h.locals, h.memory]

section

variable (hShares : SharesPrivate machine.toMachine aliases)
  (hSafe : FusionSafe machine.resident aliases function)
include hShares hSafe

/-- **An addition in front of an access.** -/
theorem add_ready {start s₁ : IRState (BitVec 64) M} {name : String} (hStart : start.pc = 0)
    (hReach : AliasedReaches machine.toMachine aliases function.instructions start path s)
    (hAccess : AddAccess keepsWord function s.pc address memory name)
    (hBoundary : Boundary keepsWord function s.pc)
    (hAgree : AgreeStored machine aliases keepsWord function e s)
    (hStep : aliasedStep machine.toMachine aliases function.instructions s = .running s₁) :
    s₁.pc = s.pc + 1 ∧ AgreeStored machine aliases keepsWord function { e with pc := s.pc + 1 } s₁ ∧
      ∃ v, machine.value s₁ (.temp name) = some v ∧
        fusedAddress machine function (shareStorage machine.toMachine aliases e)
          (emissionAt keepsWord function s.pc) = some v := by
  obtain ⟨hOp, -, -, -⟩ := isAddressAdd_spec hAccess.add
  obtain ⟨v, hCompute, rfl⟩ := step_binary hAccess.address_at hOp hStep
  have hIsAccess : (emissionAt keepsWord function s.pc).isAccess = true := by
    rw [hAccess.emission]
    split <;> rfl
  have hDead : Unmaterialised keepsWord function name :=
    ⟨s.pc, address, hAccess.address_at, hOp, hAccess.dest, Or.inr (Or.inl hIsAccess)⟩
  have hPc : (machine.write (shareStorage machine.toMachine aliases s) address.dest v).next.pc =
      s.pc + 1 := by
    simp [IRState.next, shareStorage]
  refine ⟨hPc, ?_, v, ?_, ?_⟩
  · rw [AgreeStored, hAccess.dest, shareStorage_next_temp hShares.ok]
    exact (hAgree.write_dead hDead v).pc_set rfl
  · rw [machine.value_next, hAccess.dest, machine.value_write_temp]
  · have hLive : ∀ operand, (operand = address.lhs ∨ operand = address.rhs) →
        (∀ a, tryMatchScaledTempAddress function s.pc address = some a → a.base = operand) →
        machine.value (shareStorage machine.toMachine aliases e) operand =
          machine.value (shareStorage machine.toMachine aliases s) operand := by
      intro operand hSide hOther
      apply hAgree.value
      rintro t rfl
      refine address_live hSafe hBoundary hAccess.address_at ?_ hOther
      rcases hSide with h | h
      · exact useCount_lhs h.symm
      · exact useCount_rhs h.symm
    have hFused : fusedAddress machine function (shareStorage machine.toMachine aliases e)
          (emissionAt keepsWord function s.pc) =
        emitAddress machine (shareStorage machine.toMachine aliases e) address
          (tryMatchScaledTempAddress function s.pc address) := by
      have hAt : function.instructions[(shareStorage machine.toMachine aliases e).pc]? =
          some address := by
        rw [hAgree.pc]
        exact hAccess.address_at
      rw [hAccess.emission]
      split <;> simp only [fusedAddress, hAt]
    rw [hFused]
    have hNumeric :=
      hSafe.concatenations _ _ hAccess.address_at hAccess.add hAccess.consumed_at
    obtain ⟨x, y, hx, hy, rfl⟩ := compute_add hAccess.add hNumeric hCompute
    cases hMatch : tryMatchScaledTempAddress function s.pc address with
    | none =>
      -- nothing was matched: the sum itself is emitted
      rw [emitAddress, emitAddressAdd, hLive _ (Or.inl rfl) (by rw [hMatch]; intro a h; cases h),
        hLive _ (Or.inr rfl) (by rw [hMatch]; intro a h; cases h), hx, hy]
    | some a =>
      obtain ⟨w, hIndex, hScaled⟩ :=
        scaled_value hShares hSafe hStart hReach hAccess.address_at hAccess.consumed_at hMatch
      obtain ⟨-, hParts, hSymbol, -⟩ := tryMatchScaledTempAddress_spec hMatch
      have hScaledS : machine.value (shareStorage machine.toMachine aliases s) (.temp a.scaled) =
          some (w * BitVec.ofNat 64 a.scale) := hScaled
      have hIndexE : machine.value (shareStorage machine.toMachine aliases e) a.index =
          some w := by
        rw [← hIndex]
        apply hAgree.value
        intro t hEq
        rw [hEq] at hSymbol
        cases hSymbol
      have hBaseE : machine.value (shareStorage machine.toMachine aliases e) a.base =
          machine.value (shareStorage machine.toMachine aliases s) a.base := by
        refine hLive _ ?_ (by rw [hMatch]; intro a' h; cases h; rfl)
        rcases hParts with ⟨-, h⟩ | ⟨-, h⟩
        · exact Or.inr h.symm
        · exact Or.inl h.symm
      rw [emitAddress, emitScaledAddress, hBaseE, hIndexE]
      rcases hParts with ⟨hTemp, hBase⟩ | ⟨hTemp, hBase⟩
      · rw [hTemp, hScaledS] at hx
        rw [hBase] at hy
        rw [hy, ← some.inj hx, BitVec.add_comm]
      · rw [hTemp, hScaledS] at hy
        rw [hBase] at hx
        rw [hx, ← some.inj hy]

theorem scaled_ready {s₁ s₂ : IRState (BitVec 64) M} {a : ScaledAddress} {name : String}
    (hAccess : ScaledAccess keepsWord function s.pc a shift address memory name)
    (hBoundary : Boundary keepsWord function s.pc)
    (hAgree : AgreeStored machine aliases keepsWord function e s)
    (hStep : aliasedStep machine.toMachine aliases function.instructions s = .running s₁)
    (hStep₁ : aliasedStep machine.toMachine aliases function.instructions s₁ = .running s₂) :
    s₂.pc = s.pc + 2 ∧ AgreeStored machine aliases keepsWord function { e with pc := s.pc + 2 } s₂ ∧
      ∃ v, machine.value s₂ (.temp name) = some v ∧
        fusedAddress machine function (shareStorage machine.toMachine aliases e)
          (emissionAt keepsWord function s.pc) = some v := by
  obtain ⟨shift', address', hS, hA, -, hShiftDest, hIndex, hScale, hOnce, hParts⟩ :=
    tryMatchScaledAddress_spec hAccess.matched
  rw [hAccess.address_at] at hA
  cases hA
  have hShiftOp := (shiftScale_spec hScale).1
  have hAddOp := (isAddressAdd_spec hAccess.add).1
  have hIsAccess : (emissionAt keepsWord function s.pc).isAccess = true := by
    rw [hAccess.emission]
    split <;> rfl
  have hIn : Inside keepsWord function s.pc (s.pc + 1) := by
    refine ⟨hIsAccess, by omega, ?_⟩
    rw [hAccess.consumed]
    omega
  obtain ⟨v, hCompute, rfl⟩ := step_binary hS hShiftOp hStep
  rw [hShiftDest] at hStep₁
  have hPc₁ : (machine.write (shareStorage machine.toMachine aliases s) (.temp a.scaled) v).next.pc =
      s.pc + 1 := by
    simp [IRState.next, shareStorage]
  have hA₁ : function.instructions[(machine.write (shareStorage machine.toMachine aliases s)
      (.temp a.scaled) v).next.pc]? = some address := by
    rw [hPc₁, hAccess.address_at]
  obtain ⟨sum, hSum, rfl⟩ := step_binary hA₁ hAddOp hStep₁
  rw [shareStorage_next_temp hShares.ok] at hSum ⊢
  obtain ⟨x, hx, rfl⟩ := compute_shift hScale hCompute
  have hNumeric :=
    hSafe.concatenations _ _ hAccess.address_at hAccess.add hAccess.consumed_at
  obtain ⟨y, z, hy, hz, rfl⟩ := compute_add hAccess.add hNumeric hSum
  have hDeadShift : Unmaterialised keepsWord function a.scaled :=
    ⟨s.pc, shift', hS, hShiftOp, hShiftDest, Or.inr (Or.inl hIsAccess)⟩
  have hDeadName : Unmaterialised keepsWord function name :=
    ⟨s.pc + 1, address, hAccess.address_at, hAddOp, hAccess.dest, Or.inr (Or.inr ⟨_, hIn⟩)⟩
  refine ⟨by simp [IRState.next, shareStorage], ?_, y + z, ?_, ?_⟩
  · have h₁ : AgreeOff (Unmaterialised keepsWord function)
        (shareStorage machine.toMachine aliases { e with pc := s.pc + 1 })
        (machine.write (shareStorage machine.toMachine aliases s) (.temp a.scaled)
          (x * BitVec.ofNat 64 a.scale)).next :=
      (hAgree.write_dead hDeadShift _).pc_set rfl
    have hShared : shareStorage machine.toMachine aliases (machine.write
        (machine.write (shareStorage machine.toMachine aliases s) (.temp a.scaled)
          (x * BitVec.ofNat 64 a.scale)).next (.temp name) (y + z)).next =
        (machine.write (machine.write (shareStorage machine.toMachine aliases s) (.temp a.scaled)
          (x * BitVec.ofNat 64 a.scale)).next (.temp name) (y + z)).next := by
      show (machine.write (shareStorage machine.toMachine aliases (machine.write
        (shareStorage machine.toMachine aliases s) (.temp a.scaled)
          (x * BitVec.ofNat 64 a.scale)).next) (.temp name) (y + z)).next = _
      rw [shareStorage_next_temp hShares.ok]
    rw [AgreeStored, hAccess.dest, hShared]
    exact (h₁.write_dead hDeadName _).pc_set rfl
  · rw [machine.value_next, hAccess.dest, machine.value_write_temp]
  · -- the base is not the scaled temp, which is used once
    have hBaseNe : a.base ≠ .temp a.scaled := by
      intro hEq
      have hLe := useCount_le hAccess.address_at a.scaled
      have hTwo : 2 ≤ instructionTempUseCount address a.scaled := by
        rcases hParts with ⟨hTemp, hBase⟩ | ⟨hTemp, hBase⟩
        · exact useCount_both hTemp (hBase.trans hEq)
        · exact useCount_both (hBase.trans hEq) hTemp
      omega
    have hBaseUse : ∀ t, a.base = .temp t → instructionTempUseCount address t ≠ 0 := by
      intro t hEq
      rcases hParts with ⟨-, hBase⟩ | ⟨-, hBase⟩
      · exact useCount_rhs (hBase.trans hEq)
      · exact useCount_lhs (hBase.trans hEq)
    have hBaseE : machine.value (shareStorage machine.toMachine aliases e) a.base =
        machine.value (shareStorage machine.toMachine aliases s) a.base := by
      apply hAgree.value
      intro t hEq hDead
      rcases unmaterialised_use hDead hAccess.address_at (hBaseUse t hEq) with
        ⟨p, c, hSkip, hp, hDest⟩ | ⟨k, p, d, -, hp, hd, hDest, -⟩
      · -- an addition over a skipped temp starts a unit of its own
        have h := (skipped_use hSafe hSkip hp hDest hAccess.address_at (hBaseUse t hEq)).1
        rw [hIn.not_access] at h
        cases h
      · have hps : p = s.pc := by omega
        rw [hps, hS] at hd
        cases hd
        rw [hShiftDest] at hDest
        cases hDest
        exact hBaseNe hEq
    have hIndexE : machine.value (shareStorage machine.toMachine aliases e) a.index = some x := by
      rw [← hIndex, ← hx]
      apply hAgree.value
      intro t hEq hDead
      rcases unmaterialised_use hDead hS (useCount_lhs hEq) with ⟨p, c, hSkip, hp, hDest⟩ |
        ⟨k, -, -, hInside, -⟩
      · have hAdd := (skipped_use hSafe hSkip hp hDest hS (useCount_lhs hEq)).2.1
        have hPlus := (isAddressAdd_spec hAdd).2.2.1
        rw [(shiftScale_spec hScale).2.2.1] at hPlus
        exact absurd hPlus (by decide)
      · exact hBoundary k hInside
    have hFused : fusedAddress machine function (shareStorage machine.toMachine aliases e)
          (emissionAt keepsWord function s.pc) =
        emitScaledAddress machine (shareStorage machine.toMachine aliases e) a := by
      rw [hAccess.emission]
      split <;> rfl
    have hBase₁ : machine.value (machine.write (shareStorage machine.toMachine aliases s)
          (.temp a.scaled) (x * BitVec.ofNat 64 a.scale)).next a.base =
        machine.value (shareStorage machine.toMachine aliases s) a.base := by
      rw [machine.value_next, machine.value_write_of_ne hBaseNe]
    have hScaled₁ : machine.value (machine.write (shareStorage machine.toMachine aliases s)
          (.temp a.scaled) (x * BitVec.ofNat 64 a.scale)).next (.temp a.scaled) =
        some (x * BitVec.ofNat 64 a.scale) := by
      rw [machine.value_next, machine.value_write_temp]
    rw [hFused, emitScaledAddress, hBaseE, hIndexE]
    rcases hParts with ⟨hTemp, hBase⟩ | ⟨hTemp, hBase⟩
    · rw [hTemp, hScaled₁] at hy
      rw [hBase, hBase₁] at hz
      rw [hz, ← some.inj hy, BitVec.add_comm]
    · rw [hTemp, hScaled₁] at hz
      rw [hBase, hBase₁] at hy
      rw [hy, ← some.inj hz]

/-- **The end of an access.** -/
theorem access_ready {start last : IRState (BitVec 64) M} (hStart : start.pc = 0)
    (hReach : AliasedReaches machine.toMachine aliases function.instructions start path s)
    (hAccess : (emissionAt keepsWord function s.pc).isAccess = true)
    (hBoundary : Boundary keepsWord function s.pc)
    (hAgree : AgreeStored machine aliases keepsWord function e s)
    (hRun : aliasedRun machine.toMachine aliases function.instructions
      ((emissionAt keepsWord function s.pc).consumed - 1)
      (.running s) = .running last) :
    last.pc = s.pc + (emissionAt keepsWord function s.pc).consumed - 1 ∧
      (∃ memory v, function.instructions[last.pc]? = some memory ∧
        machine.value last (accessAddress memory) = some v ∧
        fusedAddress machine function (shareStorage machine.toMachine aliases e)
          (emissionAt keepsWord function s.pc) = some v) ∧
      Outcome.AgreeOff (Unmaterialised keepsWord function)
        (emittedStep machine aliases keepsWord function e)
          (aliasedStep machine.toMachine aliases function.instructions last) := by
  have hEmitted : ∀ {j memory v}, j = s.pc + (emissionAt keepsWord function s.pc).consumed - 1 →
      function.instructions[j]? = some memory →
      fusedAddress machine function (shareStorage machine.toMachine aliases e)
        (emissionAt keepsWord function s.pc) = some v →
      emittedStep machine aliases keepsWord function e = accessMemory machine
        { shareStorage machine.toMachine aliases e with pc := j } memory v := by
    rintro j memory v rfl hM hFused
    have hPc : e.pc = s.pc := hAgree.pc
    unfold emittedStep
    rw [hPc]
    generalize emissionAt keepsWord function s.pc = emission at *
    cases emission <;>
      first | exact absurd hAccess Bool.false_ne_true | (dsimp only; rw [hM, hFused])
  rcases access_cases hAccess with ⟨address, memory, name, h⟩ | ⟨a, shift, address, memory, name, h⟩
  · rw [h.consumed] at hRun hEmitted ⊢
    have hStep : aliasedStep machine.toMachine aliases function.instructions s = .running last := by
      simpa [aliasedRun] using hRun
    obtain ⟨hPc, hAgree', v, hValue, hFused⟩ :=
      add_ready hShares hSafe hStart hReach h hBoundary hAgree hStep
    have hM : function.instructions[last.pc]? = some memory := by rw [hPc, h.memory_at]
    refine ⟨by rw [hPc]; rfl, ⟨memory, v, hM, ?_, hFused⟩, ?_⟩
    · rw [h.addressed.accessAddress, hValue]
    · rw [hEmitted (by rfl) h.memory_at hFused, aliasedStep_memory h.addressed hM]
      refine accessMemory_agree hAgree' h.addressed hValue ?_
      intro operand hOperand
      exact memory_live hSafe h.address_at h.dest h.memory_at h.addressed h.once hOperand
  · rw [h.consumed] at hRun hEmitted ⊢
    cases hStep : aliasedStep machine.toMachine aliases function.instructions s with
    | running s₁ =>
      have hStep₁ : aliasedStep machine.toMachine aliases function.instructions s₁ =
          .running last := by
        simpa [aliasedRun, hStep] using hRun
      obtain ⟨hPc, hAgree', v, hValue, hFused⟩ :=
        scaled_ready hShares hSafe h hBoundary hAgree hStep hStep₁
      have hM : function.instructions[last.pc]? = some memory := by rw [hPc, h.memory_at]
      refine ⟨by rw [hPc]; rfl, ⟨memory, v, hM, ?_, hFused⟩, ?_⟩
      · rw [h.addressed.accessAddress, hValue]
      · rw [hEmitted (by rfl) h.memory_at hFused, aliasedStep_memory h.addressed hM]
        refine accessMemory_agree hAgree' h.addressed hValue ?_
        intro operand hOperand
        exact memory_live hSafe h.address_at h.dest h.memory_at h.addressed h.once hOperand
    | returned value s₁ => simp [aliasedRun, hStep] at hRun
    | stuck s₁ => simp [aliasedRun, hStep] at hRun

end

end Units

-- ---
-- Where the emitted code can stand
-- ---

variable {i : Nat}

section Boundaries

theorem inside_op (h : Inside keepsWord function k i) (hc : function.instructions[i]? = some c) :
    c.op = .binary ∨ (i + 1 = k + (emissionAt keepsWord function k).consumed ∧
      (c.op = .load ∨ c.op = .store)) := by
  obtain ⟨hAccess, hLt, hEnd⟩ := h
  have hMemory : ∀ {memory name}, AddressedBy memory name → memory.op = .load ∨ memory.op = .store :=
    fun h => h.elim (fun h => Or.inl h.1) (fun h => Or.inr h.1)
  rcases access_cases hAccess with ⟨address, memory, name, h⟩ | ⟨a, shift, address, memory, name, h⟩
  · rw [h.consumed] at hEnd ⊢
    have hi : i = k + 1 := by omega
    rw [hi, h.memory_at] at hc
    cases hc
    exact Or.inr ⟨by omega, hMemory h.addressed⟩
  · rw [h.consumed] at hEnd ⊢
    rcases (by omega : i = k + 1 ∨ i = k + 2) with hi | hi
    · rw [hi, h.address_at] at hc
      cases hc
      exact Or.inl (isAddressAdd_spec h.add).1
    · rw [hi, h.memory_at] at hc
      cases hc
      exact Or.inr ⟨by omega, hMemory h.addressed⟩

theorem boundary_zero : Boundary keepsWord function 0 := fun _ h => absurd h.2.1 (Nat.not_lt_zero _)

theorem boundary_next (h : Boundary keepsWord function i)
    (hPlain : (emissionAt keepsWord function i).isAccess = false) :
    Boundary keepsWord function (i + 1) := by
  rintro k ⟨hAccess, hLt, hEnd⟩
  rcases Nat.lt_or_eq_of_le (Nat.le_of_lt_succ hLt) with hk | rfl
  · exact h k ⟨hAccess, hk, by omega⟩
  · rw [hPlain] at hAccess
    cases hAccess

theorem boundary_access (h : Boundary keepsWord function i)
    (hAccess : (emissionAt keepsWord function i).isAccess = true) :
    Boundary keepsWord function (i + (emissionAt keepsWord function i).consumed) := by
  rintro k ⟨hAccess', hLt, hEnd⟩
  rcases Nat.lt_trichotomy k i with hk | rfl | hk
  · exact h k ⟨hAccess', hk, by omega⟩
  · omega
  · have hIn : Inside keepsWord function i k := ⟨hAccess, hk, hLt⟩
    rw [hIn.not_access] at hAccess'
    cases hAccess'

theorem boundary_label (hc : function.instructions[i]? = some c) (hOp : c.op = .label) :
    Boundary keepsWord function i := by
  intro k hIn
  rcases inside_op hIn hc with h | ⟨-, h | h⟩ <;> rw [hOp] at h <;> cases h

end Boundaries

-- ---
-- Whole runs
-- ---

section Runs

variable {M : Type} {machine : WordMachine M} {aliases : AliasTable}

variable {e : IRState (BitVec 64) M}

theorem emittedRun_succ {n : Nat} {outcome : Outcome (BitVec 64) M}
    (h : emittedRun machine aliases keepsWord function n outcome = .running e) :
    emittedRun machine aliases keepsWord function (n + 1) outcome =
      emittedStep machine aliases keepsWord function e := by
  induction n generalizing outcome with
  | zero =>
    cases outcome with
    | running start =>
      cases h
      simp [emittedRun]
    | returned value start => cases h
    | stuck start => cases h
  | succ n ih =>
    cases outcome with
    | running start =>
      exact ih h
    | returned value start => cases h
    | stuck start => cases h

/-- The emitted code keeps up with the unfused one: it stands in front of a unit in a state that
agrees with the other's, which has executed `k` instructions of that unit since. -/
structure Follows (machine : WordMachine M) (aliases : AliasTable) (keepsWord : String → Bool)
    (function : IRFunction) (start : IRState (BitVec 64) M)
    (path : List Nat) (s : IRState (BitVec 64) M)
    (n : Nat) (e s₀ : IRState (BitVec 64) M) (path₀ : List Nat) (k : Nat) : Prop where
  reaches : AliasedReaches machine.toMachine aliases function.instructions start path₀ s₀
  emitted : emittedRun machine aliases keepsWord function n (.running start) = .running e
  agree : AgreeStored machine aliases keepsWord function e s₀
  boundary : Boundary keepsWord function s₀.pc
  since : aliasedRun machine.toMachine aliases function.instructions k (.running s₀) = .running s
  steps : path.length = path₀.length + k
  pc : s.pc = s₀.pc + k
  within : k = 0 ∨ ((emissionAt keepsWord function s₀.pc).isAccess = true ∧
    k < (emissionAt keepsWord function s₀.pc).consumed)

theorem emittedStep_plain (hPlain : (emissionAt keepsWord function e.pc).isAccess = false) :
    emittedStep machine aliases keepsWord function e =
      match emissionAt keepsWord function e.pc with
      | .skip => .running e.next
      | _ => aliasedStep machine.toMachine aliases function.instructions e := by
  unfold emittedStep
  generalize emissionAt keepsWord function e.pc = emission at hPlain
  cases emission <;> first | rfl | exact absurd hPlain (by simp [Emission.isAccess])

/-- **A unit that is not an access.** -/
theorem emittedStep_agree (hShares : SharesPrivate machine.toMachine aliases)
    (hSafe : FusionSafe machine.resident aliases function)
    {s s' : IRState (BitVec 64) M} (hAgree : AgreeStored machine aliases keepsWord function e s)
    (hBoundary : Boundary keepsWord function s.pc)
    (hPlain : (emissionAt keepsWord function s.pc).isAccess = false)
    (hStep : aliasedStep machine.toMachine aliases function.instructions s = .running s') :
    ∃ e', emittedStep machine aliases keepsWord function e = .running e' ∧
      AgreeStored machine aliases keepsWord function e' s' ∧
      Boundary keepsWord function s'.pc := by
  have hPc : e.pc = s.pc := hAgree.pc
  have hNext : Boundary keepsWord function s'.pc := by
    obtain ⟨c, hc, ⟨-, -, hIs⟩ | ⟨-, name, -, hIndex⟩⟩ := aliasedStep_edge hStep
    · rw [hIs]
      exact boundary_next hBoundary hPlain
    · obtain ⟨l, hl, hOp⟩ := getElem?_labelIndex hIndex
      exact boundary_label hl hOp
  have hSame : emittedStep machine aliases keepsWord function e =
      aliasedStep machine.toMachine aliases function.instructions e →
      ∃ e', emittedStep machine aliases keepsWord function e = .running e' ∧
        AgreeStored machine aliases keepsWord function e' s' ∧
        Boundary keepsWord function s'.pc := by
    intro hEq
    obtain ⟨c, hc, ⟨hElided, rfl⟩ | ⟨hElided, hExec⟩⟩ := aliasedStep_running hStep
    · -- a copy that is dropped
      refine ⟨e.next, ?_, hAgree.next, hNext⟩
      rw [hEq, aliasedStep, hPc, hc]
      dsimp only
      rw [hElided, if_pos rfl]
    · have hOut : Outcome.AgreeOff (Unmaterialised keepsWord function)
          (machine.execute function.instructions (shareStorage machine.toMachine aliases e) c)
          (machine.execute function.instructions (shareStorage machine.toMachine aliases s) c) :=
        execute_agree hAgree (reads_live hSafe hBoundary hPlain hc)
      rw [hExec] at hOut
      rw [hEq, aliasedStep, hPc, hc]
      dsimp only
      rw [hElided, if_neg Bool.false_ne_true]
      generalize machine.execute function.instructions (shareStorage machine.toMachine aliases e) c =
        outcome at hOut
      cases hOut with
      | running h => exact ⟨_, rfl, agreeOff_share h, hNext⟩
  rw [← hPc] at hPlain
  have hUnfold : emittedStep machine aliases keepsWord function e = _ := emittedStep_plain hPlain
  rw [hPc] at hUnfold
  cases hEmission : emissionAt keepsWord function s.pc with
  | skip =>
    -- the unfused code executes the shift, and nothing is emitted for it
    rw [hEmission] at hUnfold
    obtain ⟨shift, t, scale, hs, hDest, -, hScale, -⟩ :=
      shiftOnlyFeeds_spec (shiftOnlyFeeds_of_skip hEmission)
    have hOp := (shiftScale_spec hScale).1
    obtain ⟨v, -, rfl⟩ := step_binary hs hOp hStep
    refine ⟨e.next, hUnfold, ?_, hNext⟩
    rw [AgreeStored, hDest, shareStorage_next_temp hShares.ok]
    exact (hAgree.write_dead ⟨s.pc, shift, hs, hOp, hDest, Or.inl hEmission⟩ v).next
  | _ =>
    rw [hEmission] at hUnfold
    exact hSame hUnfold

/-- The emitted code keeps up with one more step. -/
theorem Follows.step (hShares : SharesPrivate machine.toMachine aliases)
    (hSafe : FusionSafe machine.resident aliases function)
    {start s s' s₀ : IRState (BitVec 64) M} {path₀ : List Nat} {n k : Nat}
    (hStart : start.pc = 0)
    (h : Follows machine aliases keepsWord function start path s n e s₀ path₀ k)
    (hReach : AliasedReaches machine.toMachine aliases function.instructions start path s)
    (hStep : aliasedStep machine.toMachine aliases function.instructions s = .running s') :
    ∃ n e s₀ path₀ k,
      Follows machine aliases keepsWord function start (s.pc :: path) s' n e s₀ path₀ k := by
  by_cases hAccess : (emissionAt keepsWord function s₀.pc).isAccess = true
  · have hPos : k < (emissionAt keepsWord function s₀.pc).consumed := by
      rcases h.within with hZero | ⟨-, hLt⟩
      · rw [hZero]
        rcases access_cases hAccess with ⟨_, _, _, hA⟩ | ⟨_, _, _, _, _, hA⟩ <;>
          rw [hA.consumed] <;> decide
      · exact hLt
    have hRun := aliasedRun_succ h.since
    rw [hStep] at hRun
    obtain ⟨c, hc, hEdge⟩ := aliasedStep_edge hStep
    by_cases hEnd : k + 1 = (emissionAt keepsWord function s₀.pc).consumed
    · -- the memory instruction ends the access
      have hSince : aliasedRun machine.toMachine aliases function.instructions
          ((emissionAt keepsWord function s₀.pc).consumed - 1) (.running s₀) = .running s := by
        rw [← hEnd]
        exact h.since
      obtain ⟨-, -, hOut⟩ :=
        access_ready hShares hSafe hStart h.reaches hAccess h.boundary h.agree hSince
      rw [hStep] at hOut
      generalize hEmitted : emittedStep machine aliases keepsWord function e = outcome at hOut
      cases hOut with
      | running hAgree =>
        refine ⟨n + 1, _, s', s.pc :: path, 0, hReach.step hStep, ?_, agreeOff_share hAgree, ?_, rfl,
          rfl, rfl, Or.inl rfl⟩
        · rw [emittedRun_succ h.emitted, hEmitted]
        · have hPc : s'.pc = s₀.pc + (emissionAt keepsWord function s₀.pc).consumed := by
            have hIn : Inside keepsWord function s₀.pc s.pc ∨ k = 0 := by
              rcases Nat.eq_zero_or_pos k with hk | hk
              · exact Or.inr hk
              · exact Or.inl ⟨hAccess, by rw [h.pc]; omega, by rw [h.pc]; omega⟩
            have hNotJump : ¬(c.op = .jump ∨ c.op = .branchZero ∨ c.op = .branchEq) := by
              rcases hIn with hIn | hk
              · rcases inside_op hIn hc with hOp | ⟨-, hOp | hOp⟩ <;> rw [hOp] <;> decide
              · rcases access_cases hAccess with ⟨_, _, _, hA⟩ | ⟨_, _, _, _, _, hA⟩ <;>
                  rw [hA.consumed] at hEnd <;> omega
            rcases hEdge with ⟨-, -, hNext⟩ | ⟨hJump, -⟩
            · rw [hNext, h.pc, ← hEnd]
              omega
            · exact absurd hJump hNotJump
          rw [hPc]
          exact boundary_access h.boundary hAccess
    · -- still inside: the instructions before the last one are binary
      have hOp : c.op = .binary := by
        rcases Nat.eq_zero_or_pos k with hk | hk
        · have hs : s.pc = s₀.pc := by rw [h.pc, hk]; rfl
          rw [hs] at hc
          rcases access_cases hAccess with ⟨_, _, _, hA⟩ | ⟨_, _, _, _, _, hA⟩
          · rw [hA.address_at] at hc
            cases hc
            exact (isAddressAdd_spec hA.add).1
          · obtain ⟨shift', _, hS, -, -, -, -, hScale, -, -⟩ := tryMatchScaledAddress_spec hA.matched
            rw [hS] at hc
            cases hc
            exact (shiftScale_spec hScale).1
        · have hIn : Inside keepsWord function s₀.pc s.pc :=
            ⟨hAccess, by rw [h.pc]; omega, by rw [h.pc]; omega⟩
          rcases inside_op hIn hc with hBinary | ⟨hLast, -⟩
          · exact hBinary
          · rw [h.pc] at hLast
            omega
      have hPc : s'.pc = s.pc + 1 := by
        rcases hEdge with ⟨-, -, hNext⟩ | ⟨hJump, -⟩
        · exact hNext
        · rw [hOp] at hJump
          exact absurd hJump (by decide)
      refine ⟨n, e, s₀, path₀, k + 1, h.reaches, h.emitted, h.agree, h.boundary, hRun, ?_, ?_,
        Or.inr ⟨hAccess, by omega⟩⟩
      · rw [length_cons, h.steps]
        omega
      · rw [hPc, h.pc]
        omega
  · have hk : k = 0 := by
      rcases h.within with hk | ⟨hYes, -⟩
      · exact hk
      · exact absurd hYes hAccess
    have hSame : s₀ = s := by
      have hSince := h.since
      rw [hk] at hSince
      exact Outcome.running.inj hSince
    subst hSame
    obtain ⟨e', hEmitted, hAgree, hBoundary⟩ :=
      emittedStep_agree hShares hSafe h.agree h.boundary (Bool.eq_false_iff.mpr hAccess) hStep
    refine ⟨n + 1, e', s', s₀.pc :: path, 0, hReach.step hStep, ?_, hAgree, hBoundary, rfl, rfl,
      rfl, Or.inl rfl⟩
    rw [emittedRun_succ h.emitted, hEmitted]

/-- **The emitted code follows every run of the unfused code.** -/
theorem emitted_simulates (keepsWord : String → Bool)
    (hShares : SharesPrivate machine.toMachine aliases)
    (hSafe : FusionSafe machine.resident aliases function)
    {start s : IRState (BitVec 64) M} (hStart : start.pc = 0)
    (hReach : AliasedReaches machine.toMachine aliases function.instructions start path s) :
    ∃ n e s₀ path₀ k, Follows machine aliases keepsWord function start path s n e s₀ path₀ k := by
  induction hReach with
  | start =>
    refine ⟨0, start, start, [], 0, .start, rfl, ⟨rfl, rfl, rfl, rfl, fun _ _ => rfl⟩, ?_, rfl,
      rfl, rfl, Or.inl rfl⟩
    rw [hStart]
    exact boundary_zero
  | step hReach hStep ih =>
    obtain ⟨n, e, s₀, path₀, k, h⟩ := ih
    exact h.step hShares hSafe hStart hReach hStep

/-- The promise for one start: whenever the unfused code is in front of the memory instruction
of a fused access, the emitted code has stood in front of that access in the corresponding
state, `consumed - 1` instructions ago, and the address it computes there is the address that
the unfused code has computed. -/
def FusedAddressesExact (machine : WordMachine M) (aliases : AliasTable)
    (keepsWord : String → Bool) (function : IRFunction) (start : IRState (BitVec 64) M) : Prop :=
  ∀ path s i memory, AliasedReaches machine.toMachine aliases function.instructions start path s →
    (emissionAt keepsWord function i).isAccess = true →
    s.pc = i + (emissionAt keepsWord function i).consumed - 1 →
    function.instructions[s.pc]? = some memory →
    ∃ n e s₀ path₀ address,
      AliasedReaches machine.toMachine aliases function.instructions start path₀ s₀ ∧ s₀.pc = i ∧
      path.length = path₀.length + ((emissionAt keepsWord function i).consumed - 1) ∧
      emittedRun machine aliases keepsWord function n (.running start) = .running e ∧
      AgreeStored machine aliases keepsWord function e s₀ ∧
      fusedAddress machine function (shareStorage machine.toMachine aliases e)
        (emissionAt keepsWord function i) = some address ∧
      machine.value s (accessAddress memory) = some address

end Runs

-- ---
-- Two functions
-- ---

def words : WordMachine (String → BitVec 64) where
  toMachine := wordMachine fun _ => false
  int_eq _ := rfl
  add_eq _ _ := rfl
  shl_eq a k hk := by
    interval_cases k <;> rfl

/-- `x = i; t = x << 2; n = 7; a = b + t; v = *a; return v` after `i = 3; b = 4096`. -/
def indexedLoad : IRFunction :=
  { name := "indexed_load"
    parameterNames := []
    instructions :=
      [{ op := .assign, dest := .symbol "i", lhs := .int 3 },
       { op := .assign, dest := .symbol "b", lhs := .int 4096 },
       { op := .assign, dest := .symbol "x", lhs := .symbol "i" },
       { op := .binary, dest := .temp "t", lhs := .symbol "x", rhs := .int 2, text := some "<<" },
       { op := .assign, dest := .symbol "n", lhs := .int 7 },
       { op := .binary, dest := .temp "a", lhs := .symbol "b", rhs := .temp "t", text := some "+" },
       { op := .load, dest := .temp "v", lhs := .temp "a", rhs := .int 4 },
       { op := .return_, lhs := .temp "v" }] }

theorem walk_straight {instructions : List IRInstruction}
    (hStraight : ∀ c ∈ instructions, c.op ≠ .jump ∧ c.op ≠ .branchZero ∧ c.op ≠ .branchEq)
    (h : Walk instructions path k) : path = (List.range k).reverse := by
  induction h with
  | start => rfl
  | step _ hEdge ih =>
    obtain ⟨c, hc, ⟨-, -, rfl⟩ | ⟨hJump, -⟩⟩ := hEdge
    · rw [range_succ, reverse_append, ih]
      rfl
    · obtain ⟨h₁, h₂, h₃⟩ := hStraight c (mem_of_getElem? hc)
      rcases hJump with h | h | h
      · exact absurd h h₁
      · exact absurd h h₂
      · exact absurd h h₃

/-- The index is read in the storage of `i`, which is written once. -/
theorem indexedLoad_safe (resident : String → Bool) :
    FusionSafe resident [("x", "i")] indexedLoad := by
  have hShift : ∀ p, shiftOnlyFeedsScaledAddresses indexedLoad p = true → p = 3 := by
    intro p hFeeds
    obtain ⟨shift, _, _, hp, -⟩ := shiftOnlyFeeds_spec hFeeds
    have hLt : p < 8 := (List.getElem_of_getElem? hp).1
    interval_cases p <;> first | rfl | exact absurd hFeeds (by decide)
  -- the one use of the temp is the addition
  have hUse : ∀ (i : Nat) (c : IRInstruction), indexedLoad.instructions[i]? = some c →
      instructionTempUseCount c "t" ≠ 0 → i = 5 := by
    intro i c hc hUse
    have hLt : i < 8 := (List.getElem_of_getElem? hc).1
    interval_cases i <;> cases hc <;> first | rfl | exact absurd hUse (by decide)
  refine ⟨?_, ?_, ?_, ?_, ?_, ?_⟩
  · intro i address a hA hConsumed hMatch path hWalk
    have hLt : i < 8 := (List.getElem_of_getElem? hA).1
    have hi : i = 5 := by
      interval_cases i <;> first | rfl | exact absurd hConsumed (by decide)
    subst hi
    cases hA
    cases hMatch
    refine ⟨[4], [2, 1, 0], walk_straight (by decide) hWalk, ?_⟩
    intro q hq c hc
    rw [mem_singleton.mp hq] at hc
    cases hc
    exact ⟨⟨by decide, trivial⟩, by decide, by decide, fun _ => rfl⟩
  · intro p shift name i c hFeeds hp hDest hc hName
    obtain rfl := hShift p hFeeds
    cases hp
    cases hDest
    obtain rfl := hUse i c hc hName
    cases hc
    exact ⟨{ base := .symbol "b", index := .symbol "x", scale := 4, scaled := "t", shift := 3 },
      by decide, rfl, by decide⟩
  · intro p shift name i c hFeeds hp hDest hc hName
    obtain rfl := hShift p hFeeds
    cases hp
    cases hDest
    have hi := hUse (i + 1) c hc hName
    obtain rfl : i = 4 := by omega
    exact ⟨by decide, by decide⟩
  · intro i c j d hc hKernel
    have hNone : ∀ c ∈ indexedLoad.instructions, c.op.isKernel = false := by decide
    rw [hNone c (mem_of_getElem? hc)] at hKernel
    cases hKernel
  · intro i address hA _ _
    have hNone : ∀ c ∈ indexedLoad.instructions, c.astRef = false := by decide
    exact hNone address (mem_of_getElem? hA)
  · intro i c hc hOp
    have hAll : ∀ c ∈ indexedLoad.instructions, c.op = .load ∨ c.op = .store →
        getAccessSize c.rhs > 0 := by decide
    exact hAll c (mem_of_getElem? hc) hOp

/-- `t = i << 2; i = 5; a = b + t; v = *a; return v` after `i = 1; b = 4096`. -/
def reassignedIndex : IRFunction :=
  { name := "reassigned_index"
    parameterNames := []
    instructions :=
      [{ op := .assign, dest := .symbol "i", lhs := .int 1 },
       { op := .assign, dest := .symbol "b", lhs := .int 4096 },
       { op := .binary, dest := .temp "t", lhs := .symbol "i", rhs := .int 2, text := some "<<" },
       { op := .assign, dest := .symbol "i", lhs := .int 5 },
       { op := .binary, dest := .temp "a", lhs := .symbol "b", rhs := .temp "t", text := some "+" },
       { op := .load, dest := .temp "v", lhs := .temp "a", rhs := .int 4 },
       { op := .return_, lhs := .temp "v" }] }

end Mettle.Codegen
