import Mettle.IR.Expanded
import Mettle.IR.SumLoop

/-!
# Mettle — loops that step a pointer

The model of `ir_try_pointer_induction_at`: in a loop `while (i < n)` whose body loads or stores
`base[i]`, the address `base + 4 * i` is kept in a pointer of its own. Before the loop the pointer
is set to the base and an end pointer to `base + 4 * n`; at the increment of `i` the pointer is
moved by 4; loads and stores use the pointer; the comparison `i < n` becomes one of the two
pointers; and the computations of the addresses are dropped.

The comparison and the addresses are rewritten from the header to the end of the function, and what
is dropped is not looked at by its uses. `InductionSafe` and `StepsPointer` say when nothing of this
is noticed.
-/

namespace Mettle.IR

open List Option

-- ---
-- The loop
-- ---

/-- The places and the labels of a loop. -/
structure WhileLoopBounds where
  compareIndex : Nat
  branchIndex : Nat
  jumpIndex : Nat
  loopLabel : String
  exitLabel : String
  deriving DecidableEq

/-- `ir_find_while_loop_bounds`. -/
def findWhileLoopBounds (instructions : List IRInstruction) (h : Nat) : Option WhileLoopBounds := do
  let header ← instructions[h]?
  let loopLabel ← header.labelName
  let compareIndex ← findNextNonNop instructions (h + 1)
  let branchIndex ← findNextNonNop instructions (compareIndex + 1)
  let compare ← instructions[compareIndex]?
  let branch ← instructions[branchIndex]?
  let exitLabel ← branch.text
  let jumpIndex ← findJumpBeforeExit instructions loopLabel exitLabel (branchIndex + 1)
  match compare.dest, compare.lhs with
  | .temp temp, .symbol _ =>
    if h + 4 < instructions.length ∧ labelIsWhileHeader (some loopLabel) = true ∧
        compare.op = .binary ∧ compare.isFloat = false ∧ compare.text = some "<" ∧
        branch.op = .branchZero ∧ branch.lhs = .temp temp then
      some { compareIndex, branchIndex, jumpIndex, loopLabel, exitLabel }
    else none
  | _, _ => none

/-- `ir_ptr_induction_iv_start_value`: the assignment before the header, up to a label; failing
that, the first one in the function. -/
def ivStartValue (instructions : List IRInstruction) (h : Nat) (iv : String) : Option Int :=
  let assigned : Option Int := (instructions.take h).findSome? fun c =>
    match c.op, c.dest, c.lhs with
    | .assign, .symbol x, .int n => if x = iv then some n else none
    | _, _, _ => none
  match (instructions.take h).reverse.find? fun c =>
      c.op == .label || (c.op == .assign && c.dest == .symbol iv) with
  | none => assigned
  | some c =>
    if c.op = .label then assigned
    else
      match c.lhs with
      | .int n => some n
      | _ => none

def incrementIndexOf (instructions : List IRInstruction) (start stop : Nat) : Option Nat :=
  (List.range' start (stop - start)).reverse.find? fun i =>
    instructions[i]?.any fun c => c.op != .nop

structure InductionLoop where
  iv : String
  bound : String
  compareIndex : Nat
  branchIndex : Nat
  incrementIndex : Nat
  jumpIndex : Nat
  deriving DecidableEq

/-- The loops that `ir_try_pointer_induction_at` looks at. -/
def inductionLoopAt (function : IRFunction) (h : Nat) : Option InductionLoop := do
  let instructions := function.instructions
  let bounds ← findWhileLoopBounds instructions h
  let compare ← instructions[bounds.compareIndex]?
  let incrementIndex ← incrementIndexOf instructions (bounds.branchIndex + 1) bounds.jumpIndex
  let increment ← instructions[incrementIndex]?
  match compare.lhs, compare.rhs with
  | .symbol iv, .symbol bound =>
    if symbolIsSumLoopBound function bound = true ∧ ivStartValue instructions h iv = some 0 ∧
        isUnitIncrement iv increment = true ∧
        ((instructions.take bounds.jumpIndex).drop (bounds.branchIndex + 1)).any (fun c =>
          c.op == .label && labelIsWhileHeader c.text) = false then
      some { iv, bound, compareIndex := bounds.compareIndex, branchIndex := bounds.branchIndex
             incrementIndex, jumpIndex := bounds.jumpIndex }
    else none
  | _, _ => none

-- ---
-- Addresses
-- ---

/-- `ir_match_forward_i32_index`. -/
def matchForwardI32Index (c : IRInstruction) (iv : String) : Bool :=
  c.op == .binary && !c.isFloat && c.lhs == .symbol iv &&
    ((c.text == some "<<" && c.rhs == .int 2) || (c.text == some "*" && c.rhs == .int 4))

def indexProducer (instructions : List IRInstruction) (before : Nat) (index : String) :
    Option IRInstruction :=
  let producer := findTempProducerBefore instructions before index
  match producer with
  | none => none
  | some c =>
    match c.op, c.rhs with
    | .assign, .temp source => findTempProducerBefore instructions before source
    | _, _ => producer

/-- `ir_resolve_indexed_address_temp`: the base. -/
def resolveIndexedAddressTemp (instructions : List IRInstruction) (before : Nat)
    (iv address : String) : Option String := do
  let add ← findTempProducerBefore instructions before address
  if add.op = .binary ∧ add.isFloat = false ∧ add.text = some "+" ∧ add.dest = .temp address then
    let scaled (base index : String) : Option String := do
      let producer ← indexProducer instructions before index
      if matchForwardI32Index producer iv = true ∨
          (producer.op = .binary ∧ producer.text = some "*" ∧ producer.lhs = .symbol iv ∧
            producer.rhs = .int 4) then some base
      else none
    match add.lhs, add.rhs with
    | .symbol base, .temp index => scaled base index
    | .temp index, .symbol base => scaled base index
    -- the index may also be a count of bytes
    | .symbol base, .symbol i => if i = iv then some base else none
    | _, _ => none
  else none

/-- `ir_symbol_is_i32_ptr_param`. -/
def symbolIsI32PtrParam (function : IRFunction) (symbol : String) : Bool :=
  if function.parameterNames.contains symbol then
    let type := (localDeclaredType function.instructions symbol).or
      ((function.parameterNames.zip function.parameterTypes).findSome? fun (name, type) =>
        if name = symbol then type else none)
    type == some "int32*"
  else symbolIsInlinedParam function symbol "int32*" "_param_"

-- ---
-- Pointers
-- ---

/-- A base, the pointer that stands for it, and the temps that hold its addresses. -/
structure PtrBaseBinding where
  base : String
  ptr : String
  addrTemps : List String
  deriving DecidableEq

def IR_PTR_BIND_MAX : Nat := 4

/-- `ir_ptr_induction_base_tag`. -/
def ptrInductionBaseTag (base : String) : String :=
  match base.toList with
  | '@' :: rest => String.ofList rest
  | _ => base

/-- `ir_ptr_induction_make_name`: a buffer of 96 characters. -/
def ptrInductionMakeName (base : String) (h : Nat) (suffix : String) : String :=
  String.ofList (("__ptr_" ++ toString h ++ "_" ++ ptrInductionBaseTag base ++ "_" ++
    suffix).toList.take 95)

/-- `ir_ptr_binding_add`; there is no room for more than four bases and eight temps. -/
def ptrBindingAdd (bindings : List PtrBaseBinding) (h : Nat) (base address : String) :
    Option (List PtrBaseBinding) :=
  if IR_PTR_BIND_MAX ≤ bindings.length then none
  else
    match bindings.findIdx? fun b => b.base == base with
    | none =>
      some (bindings ++ [{ base, ptr := ptrInductionMakeName base h "p", addrTemps := [address] }])
    | some i =>
      match bindings[i]? with
      | none => none
      | some b =>
        if 8 ≤ b.addrTemps.length then none
        else if address ∈ b.addrTemps then some bindings
        else some (bindings.set i { b with addrTemps := b.addrTemps ++ [address] })

def addressTemp (c : IRInstruction) : Option String :=
  match c.op, c.lhs, c.dest with
  | .load, .temp t, _ => some t
  | .store, _, .temp t => some t
  | _, _, _ => none

def collectBindings (function : IRFunction) (h : Nat) (loop : InductionLoop) :
    Option (List PtrBaseBinding) :=
  (List.range' (loop.branchIndex + 1) (loop.jumpIndex - (loop.branchIndex + 1))).foldlM
    (fun bindings i =>
      match function.instructions[i]?.bind addressTemp with
      | none => some bindings
      | some address =>
        match resolveIndexedAddressTemp function.instructions i loop.iv address with
        | none => some bindings
        | some base =>
          if symbolIsI32PtrParam function base then ptrBindingAdd bindings h base address
          else some bindings) []

/-- `ir_ptr_lookup_addr_temp`. -/
def ptrLookupAddrTemp (bindings : List PtrBaseBinding) (temp : String) : Option PtrBaseBinding :=
  bindings.find? fun b => b.addrTemps.contains temp

-- ---
-- The new function
-- ---

def endPtrOf (h : Nat) (bindings : List PtrBaseBinding) : String :=
  ptrInductionMakeName ((bindings.head?.map (·.base)).getD "") h "end"

def endScaleTemp (h : Nat) : String := "__ptr_t" ++ toString h ++ "_end"

def pointerType (instructions : List IRInstruction) (base : String) : String :=
  (localDeclaredType instructions base).getD "int32*"

/-- `ptr = base`. -/
def setPointer (instructions : List IRInstruction) (b : PtrBaseBinding) : List IRInstruction :=
  [{ op := .declareLocal, dest := .symbol b.ptr, text := some (pointerType instructions b.base) },
   { op := .assign, dest := .symbol b.ptr, lhs := .symbol b.base }]

/-- `end = base + (bound << 2)`. -/
def setEnd (instructions : List IRInstruction) (h : Nat) (bound : String)
    (bindings : List PtrBaseBinding) : List IRInstruction :=
  let base := (bindings.head?.map (·.base)).getD ""
  [{ op := .declareLocal, dest := .symbol (endPtrOf h bindings)
     text := some (pointerType instructions base) },
   { op := .assign, dest := .symbol (endPtrOf h bindings), lhs := .symbol base },
   { op := .binary, text := some "<<", dest := .temp (endScaleTemp h), lhs := .symbol bound
     rhs := .int 2 },
   { op := .binary, text := some "+", dest := .symbol (endPtrOf h bindings)
     lhs := .symbol (endPtrOf h bindings), rhs := .temp (endScaleTemp h) }]

def inductionPrelude (instructions : List IRInstruction) (h : Nat) (loop : InductionLoop)
    (bindings : List PtrBaseBinding) : List IRInstruction :=
  bindings.flatMap (setPointer instructions) ++ setEnd instructions h loop.bound bindings

/-- `ptr = ptr + 4`. -/
def stepPointer (b : PtrBaseBinding) : IRInstruction :=
  { op := .binary, text := some "+", dest := .symbol b.ptr, lhs := .symbol b.ptr, rhs := .int 4 }

/-- `ir_ptr_induction_rewrite_instruction`. -/
def ptrRewriteInstruction (h : Nat) (iv : String) (bindings : List PtrBaseBinding)
    (c : IRInstruction) : IRInstruction :=
  match addressTemp c with
  | some t =>
    match ptrLookupAddrTemp bindings t with
    | some b =>
      if c.op = .load then { c with lhs := .symbol b.ptr } else { c with dest := .symbol b.ptr }
    | none => c
  | none =>
    match bindings.head? with
    | some b =>
      if c.op = .binary ∧ c.text = some "<" ∧ c.lhs = .symbol iv then
        { c with lhs := .symbol b.ptr, rhs := .symbol (endPtrOf h bindings) }
      else c
    | none => c

/-- `ir_ptr_induction_should_drop_body_insn`. -/
def ptrShouldDrop (iv : String) (bindings : List PtrBaseBinding) (c : IRInstruction) : Bool :=
  (match c.dest with
    | .temp t => (ptrLookupAddrTemp bindings t).isSome
    | _ => false) ||
    (c.op == .binary && c.text == some "<<" && c.lhs == .symbol iv) ||
    (c.op == .binary && c.text == some "+" && c.dest == .symbol iv && c.rhs == .int 1)

def dropsAt (h : Nat) (loop : InductionLoop) (bindings : List PtrBaseBinding) (i : Nat)
    (c : IRInstruction) : Bool :=
  i != loop.incrementIndex && decide (loop.branchIndex + 1 ≤ i) && decide (i < loop.jumpIndex) &&
    ptrShouldDrop loop.iv bindings (ptrRewriteInstruction h loop.iv bindings c)

def inductionEmit (h : Nat) (loop : InductionLoop) (bindings : List PtrBaseBinding) (i : Nat)
    (c : IRInstruction) : List IRInstruction :=
  if i = loop.incrementIndex then bindings.map stepPointer ++ [c]
  else if dropsAt h loop bindings i c then []
  else [ptrRewriteInstruction h loop.iv bindings c]

def inductionCode (instructions : List IRInstruction) (h : Nat) (loop : InductionLoop)
    (bindings : List PtrBaseBinding) : List IRInstruction :=
  instructions.take h ++ inductionPrelude instructions h loop bindings ++
    expandedFrom (inductionEmit h loop bindings) h (instructions.drop h)

/-- `ir_try_pointer_induction_at`: the new function, and whether it changed. The pass fails when
there is no room for a binding. -/
def tryPointerInductionAt (function : IRFunction) (h : Nat) : Option (IRFunction × Bool) :=
  match inductionLoopAt function h with
  | none => some (function, false)
  | some loop =>
    match collectBindings function h loop with
    | none => none
    | some [] => some (function, false)
    | some bindings =>
      some ({ function with
        instructions := inductionCode function.instructions h loop bindings }, true)

-- ---
-- What is matched
-- ---

structure IsInductionLoop (instructions : List IRInstruction) (h : Nat) (loop : InductionLoop) :
    Prop where
  headerAt : h < instructions.length
  notFirst : 0 < h
  afterHeader : h < loop.compareIndex
  afterCompare : loop.compareIndex < loop.branchIndex
  compareAt : ∃ c, instructions[loop.compareIndex]? = some c ∧ c.op = .binary ∧
    c.isFloat = false ∧ c.text = some "<" ∧ c.lhs = .symbol loop.iv ∧ c.rhs = .symbol loop.bound
  afterBranch : loop.branchIndex < loop.incrementIndex
  incrementAt : ∃ c, instructions[loop.incrementIndex]? = some c ∧ isUnitIncrement loop.iv c = true
  beforeJump : loop.incrementIndex < loop.jumpIndex

variable {h : Nat}

theorem findWhileLoopBounds_spec {code : List IRInstruction}
    {bounds : WhileLoopBounds} (hBounds : findWhileLoopBounds code h = some bounds) :
    h < code.length ∧ h < bounds.compareIndex ∧ bounds.compareIndex < bounds.branchIndex ∧
      ∃ c, code[bounds.compareIndex]? = some c ∧ c.op = .binary ∧ c.isFloat = false ∧
        c.text = some "<" := by
  unfold findWhileLoopBounds at hBounds
  simp only [bind_eq_bind, bind_eq_some_iff] at hBounds
  obtain ⟨header, hHeader, loopLabel, -, compareIndex, hCompare, branchIndex, hBranch, compare,
    hCompareAt, branch, -, exitLabel, -, jumpIndex, -, hEnd⟩ := hBounds
  split at hEnd
  · split at hEnd
    · rename_i hAll
      cases hEnd
      obtain ⟨-, -, hOp, hFloat, hText, -⟩ := hAll
      have hAfter := (findNextNonNop_spec hCompare).1
      have hAfter' := (findNextNonNop_spec hBranch).1
      exact ⟨(List.getElem_of_getElem? hHeader).1, by dsimp only; omega, by dsimp only; omega,
        compare, hCompareAt, hOp, hFloat, hText⟩
    · cases hEnd
  · cases hEnd

theorem inductionLoopAt_spec {function : IRFunction} {loop : InductionLoop}
    (hLoop : inductionLoopAt function h = some loop) :
    IsInductionLoop function.instructions h loop := by
  unfold inductionLoopAt at hLoop
  simp only [bind_eq_bind, bind_eq_some_iff] at hLoop
  obtain ⟨bounds, hBounds, compare, hCompare, incrementIndex, hIndex, increment, hIncrement,
    hEnd⟩ := hLoop
  obtain ⟨hHeader, hAfter, hAfter', c, hc, hOp, hFloat, hText⟩ := findWhileLoopBounds_spec hBounds
  obtain rfl := some.inj (hc.symm.trans hCompare)
  split at hEnd
  · rename_i iv bound hLhs hRhs
    split at hEnd
    · rename_i hAll
      cases hEnd
      have hMem := mem_of_find?_eq_some hIndex
      rw [mem_reverse, mem_range'_1] at hMem
      refine ⟨hHeader, Nat.pos_of_ne_zero ?_, hAfter, hAfter',
        ⟨c, hc, hOp, hFloat, hText, hLhs, hRhs⟩, by dsimp only; omega,
        ⟨increment, hIncrement, hAll.2.2.1⟩, by dsimp only; omega⟩
      -- before the first instruction nothing is assigned
      rintro rfl
      have hStart := hAll.2.1
      cases hStart
    · cases hEnd
  · cases hEnd

variable {c : IRInstruction}

theorem isUnitIncrement_spec {iv : String} (hc : isUnitIncrement iv c = true) :
    c.op = .binary ∧ c.isFloat = false ∧ c.text = some "+" ∧ c.dest = .symbol iv ∧
      c.lhs = .symbol iv ∧ c.rhs = .int 1 := by
  simpa [isUnitIncrement, and_assoc] using hc

theorem ptrRewrite_cases (h : Nat) (iv : String) (bindings : List PtrBaseBinding)
    (c : IRInstruction) :
    ptrRewriteInstruction h iv bindings c = c ∨
    (∃ t b, c.op = .load ∧ c.lhs = .temp t ∧ ptrLookupAddrTemp bindings t = some b ∧
      ptrRewriteInstruction h iv bindings c = { c with lhs := .symbol b.ptr }) ∨
    (∃ t b, c.op = .store ∧ c.dest = .temp t ∧ ptrLookupAddrTemp bindings t = some b ∧
      ptrRewriteInstruction h iv bindings c = { c with dest := .symbol b.ptr }) ∨
    ∃ b, bindings.head? = some b ∧ c.op = .binary ∧ ptrRewriteInstruction h iv bindings c =
      { c with lhs := .symbol b.ptr, rhs := .symbol (endPtrOf h bindings) } := by
  unfold ptrRewriteInstruction
  split
  · rename_i t hTemp
    split
    · rename_i b hBound
      unfold addressTemp at hTemp
      split at hTemp
      · rename_i t' hOp hLhs
        obtain rfl := some.inj hTemp
        rw [if_pos hOp]
        exact Or.inr (Or.inl ⟨t', b, hOp, hLhs, hBound, rfl⟩)
      · rename_i t' hOp hDest
        obtain rfl := some.inj hTemp
        rw [if_neg (by rw [hOp]; exact nofun)]
        exact Or.inr (Or.inr (Or.inl ⟨t', b, hOp, hDest, hBound, rfl⟩))
      · cases hTemp
    · exact Or.inl rfl
  · split
    · rename_i b hFirst
      split
      · rename_i hAll
        exact Or.inr (Or.inr (Or.inr ⟨b, hFirst, hAll.1, rfl⟩))
      · exact Or.inl rfl
    · exact Or.inl rfl

variable {bindings : List PtrBaseBinding}

section Rewrite

variable {iv : String}

theorem ptrRewrite_op : (ptrRewriteInstruction h iv bindings c).op = c.op := by
  obtain hSame | ⟨t, b, -, -, -, hNew⟩ | ⟨t, b, -, -, -, hNew⟩ | ⟨b, -, -, hNew⟩ :=
    ptrRewrite_cases h iv bindings c
  · rw [hSame]
  · rw [hNew]
  · rw [hNew]
  · rw [hNew]

theorem ptrRewrite_text : (ptrRewriteInstruction h iv bindings c).text = c.text := by
  obtain hSame | ⟨t, b, -, -, -, hNew⟩ | ⟨t, b, -, -, -, hNew⟩ | ⟨b, -, -, hNew⟩ :=
    ptrRewrite_cases h iv bindings c
  · rw [hSame]
  · rw [hNew]
  · rw [hNew]
  · rw [hNew]

theorem ptrRewrite_writes : (ptrRewriteInstruction h iv bindings c).writes = c.writes := by
  obtain hSame | ⟨t, b, hOp, -, -, hNew⟩ | ⟨t, b, hOp, -, -, hNew⟩ | ⟨b, -, hOp, hNew⟩ :=
    ptrRewrite_cases h iv bindings c
  · rw [hSame]
  all_goals simp [hNew, IRInstruction.writes, hOp, IROpcode.writesDestination]

theorem ptrRewrite_isLabel (name : String) :
    (ptrRewriteInstruction h iv bindings c).isLabel name = c.isLabel name := by
  rw [IRInstruction.isLabel, IRInstruction.isLabel, ptrRewrite_op, ptrRewrite_text]

end Rewrite

-- ---
-- Where everything went
-- ---

def inductionEmitAll (instructions : List IRInstruction) (h : Nat) (loop : InductionLoop)
    (bindings : List PtrBaseBinding) (i : Nat) (c : IRInstruction) : List IRInstruction :=
  if i < h then [c]
  else (if i = h then inductionPrelude instructions h loop bindings else []) ++
    inductionEmit h loop bindings i c

theorem inductionCode_eq {instructions : List IRInstruction} {loop : InductionLoop}
    (hLt : h < instructions.length) :
    inductionCode instructions h loop bindings =
      expanded (inductionEmitAll instructions h loop bindings) instructions := by
  have hLength : (instructions.take h).length = h := by
    rw [length_take, Nat.min_eq_left (Nat.le_of_lt hLt)]
  have hFront : expandedFrom (inductionEmitAll instructions h loop bindings) 0
      (instructions.take h) = instructions.take h := by
    refine expandedFrom_same _ _ ?_
    intro i c hLow hHigh
    rw [inductionEmitAll, if_pos (by omega)]
  have hBack : expandedFrom (inductionEmitAll instructions h loop bindings) (h + 1)
      (instructions.drop (h + 1)) =
      expandedFrom (inductionEmit h loop bindings) (h + 1) (instructions.drop (h + 1)) := by
    refine expandedFrom_congr _ _ ?_
    intro i c hLow
    rw [inductionEmitAll, if_neg (by omega), if_neg (by omega), nil_append]
  rw [expanded, ← take_append_drop h instructions, expandedFrom_append,
    take_append_drop h instructions, hFront, hLength, inductionCode,
    ← getElem_cons_drop hLt, expandedFrom, expandedFrom, Nat.zero_add, hBack, inductionEmitAll,
    if_neg (Nat.lt_irrefl h), if_pos rfl]
  simp

-- ---
-- The conditions
-- ---

structure PtrRewrite where
  instructions : List IRInstruction
  h : Nat
  loop : InductionLoop
  bindings : List PtrBaseBinding

namespace PtrRewrite

variable (r : PtrRewrite)

def code : List IRInstruction := inductionCode r.instructions r.h r.loop r.bindings

def emit : Nat → IRInstruction → List IRInstruction :=
  inductionEmitAll r.instructions r.h r.loop r.bindings

def rewrite (c : IRInstruction) : IRInstruction :=
  ptrRewriteInstruction r.h r.loop.iv r.bindings c

def drops (p : Nat) (c : IRInstruction) : Bool := dropsAt r.h r.loop r.bindings p c

def Holds (p : Nat) : Prop := r.h ≤ p ∧ p ≤ r.loop.jumpIndex

instance (p : Nat) : Decidable (r.Holds p) := inferInstanceAs (Decidable (_ ∧ _))

def freshNames : List String := endPtrOf r.h r.bindings :: r.bindings.map (·.ptr)

def lost : List IROperand :=
  .temp (endScaleTemp r.h) :: r.freshNames.map .symbol ++
    (r.instructions.zipIdx.filter fun x => r.drops x.2 x.1).map fun x => x.1.dest

def keptReads (p : Nat) (c : IRInstruction) : List IROperand :=
  if p < r.h ∨ p = r.loop.incrementIndex ∨ r.rewrite c = c then c.reads
  else if c.op = .load then [c.rhs]
  else if c.op = .store then [c.lhs, c.rhs]
  else []

def accessAt (p : Nat) : Option (String × PtrBaseBinding) := do
  let c ← r.instructions[p]?
  let t ← addressTemp c
  let b ← ptrLookupAddrTemp r.bindings t
  some (t, b)

end PtrRewrite

/-- **The rewrite is not noticed.** -/
structure InductionSafe (resident : String → Bool) (r : PtrRewrite) : Prop where
  distinct : r.freshNames.Nodup
  isPrivate : ∀ x ∈ r.freshNames, resident x = false
  apart : ∀ x ∈ r.loop.bound :: r.bindings.map (·.base), x ∉ r.freshNames
  unused : ∀ c ∈ r.instructions, c.op ≠ .inlineAsm ∧ ∀ x ∈ r.freshNames, .symbol x ∉ c.writes
  plain : ∀ p c, r.instructions[p]? = some c → r.drops p c = true →
    c.op.isPure = true ∧ ∃ t, c.dest = .temp t
  unread : ∀ p c, r.instructions[p]? = some c → r.drops p c = false →
    ∀ operand ∈ r.keptReads p c, operand ∉ r.lost
  inside : ∀ p c, r.instructions[p]? = some c → r.h ≤ p → p ≠ r.loop.incrementIndex →
    r.rewrite c ≠ c →
    p = r.loop.compareIndex ∨ (r.loop.branchIndex < p ∧ p < r.loop.jumpIndex ∧ c.op ≠ .binary)
  entered : ∀ p c name q, r.instructions[p]? = some c → ¬ r.Holds p → c.mayJump = true →
    c.text = some name → labelIndex r.instructions name = some q → ¬ r.Holds q

section Conditions

variable {M : Type} (machine : Machine (BitVec 64) M) (r : PtrRewrite)

def nextState? (instructions : List IRInstruction) (s : IRState (BitVec 64) M) :
    Option (IRState (BitVec 64) M) :=
  (machine.step instructions s).running?

def elementAddress (s : IRState (BitVec 64) M) (base iv : String) : Option (BitVec 64) := do
  let v ← machine.value s (.symbol base)
  let i ← machine.value s (.symbol iv)
  some (v + (i <<< 2))

def EntersLoop (s : IRState (BitVec 64) M) : Prop :=
  machine.value s (.symbol r.loop.iv) = some 0 ∧
    (machine.value s (.symbol r.loop.bound)).isSome = true ∧
    ∀ b ∈ r.bindings, (machine.value s (.symbol b.base)).isSome = true

def KeepsLoop (s t : IRState (BitVec 64) M) : Prop :=
  (s.pc ≠ r.loop.incrementIndex →
    machine.value t (.symbol r.loop.iv) = machine.value s (.symbol r.loop.iv)) ∧
  machine.value t (.symbol r.loop.bound) = machine.value s (.symbol r.loop.bound) ∧
  ∀ b ∈ r.bindings, machine.value t (.symbol b.base) = machine.value s (.symbol b.base)

/-- The end of the array is compared as its length is: the addresses do not wrap around. -/
def GuardAgrees (s : IRState (BitVec 64) M) : Prop :=
  ∀ i ∈ machine.value s (.symbol r.loop.iv), ∀ n ∈ machine.value s (.symbol r.loop.bound),
    ∀ b ∈ r.bindings.head?, ∀ v ∈ machine.value s (.symbol b.base),
      (v + (i <<< 2)).slt (v + (n <<< 2)) = i.slt n

/-- The increment makes the index one more: its sum fits the index. -/
def CountsUp (s : IRState (BitVec 64) M) : Prop :=
  ∀ i ∈ machine.value s (.symbol r.loop.iv), ∀ t ∈ nextState? machine r.instructions s,
    machine.value t (.symbol r.loop.iv) = some (i + 1)

/-- **The condition at one step of a run.** -/
structure StepsPointer (s : IRState (BitVec 64) M) : Prop where
  address : r.h ≤ s.pc → ∀ x ∈ r.accessAt s.pc,
    machine.value s (.temp x.1) = elementAddress machine s x.2.base r.loop.iv
  guard : s.pc = r.loop.compareIndex → GuardAgrees machine r s
  counted : s.pc = r.loop.incrementIndex → CountsUp machine r s
  kept : r.Holds s.pc → ∀ t ∈ nextState? machine r.instructions s, r.Holds t.pc →
    KeepsLoop machine r s t
  entered : ¬ r.Holds s.pc → ∀ t ∈ nextState? machine r.instructions s, t.pc = r.h →
    EntersLoop machine r t

instance (s : IRState (BitVec 64) M) : Decidable (EntersLoop machine r s) :=
  inferInstanceAs (Decidable (_ ∧ _ ∧ _))

instance (s t : IRState (BitVec 64) M) : Decidable (KeepsLoop machine r s t) :=
  inferInstanceAs (Decidable ((_ → _) ∧ _ ∧ _))

-- not by trying all words
instance (s : IRState (BitVec 64) M) : Decidable (GuardAgrees machine r s) :=
  decidable_of_iff (((machine.value s (.symbol r.loop.iv)).all fun i : BitVec 64 =>
      (machine.value s (.symbol r.loop.bound)).all fun n : BitVec 64 => r.bindings.head?.all fun b =>
        (machine.value s (.symbol b.base)).all fun v : BitVec 64 =>
          (v + (i <<< 2)).slt (v + (n <<< 2)) == i.slt n) = true)
    (by simp only [GuardAgrees, Option.all_eq_true, beq_iff_eq, Option.mem_def])

instance (s : IRState (BitVec 64) M) : Decidable (CountsUp machine r s) :=
  decidable_of_iff (((machine.value s (.symbol r.loop.iv)).all fun i : BitVec 64 =>
      (nextState? machine r.instructions s).all fun t =>
        machine.value t (.symbol r.loop.iv) == some (i + 1)) = true)
    (by simp only [CountsUp, Option.all_eq_true, beq_iff_eq, Option.mem_def])

instance (s : IRState (BitVec 64) M) : Decidable (StepsPointer machine r s) :=
  decidable_of_iff ((r.h ≤ s.pc → ∀ x ∈ r.accessAt s.pc,
      machine.value s (.temp x.1) = elementAddress machine s x.2.base r.loop.iv) ∧
    (s.pc = r.loop.compareIndex → GuardAgrees machine r s) ∧
    (s.pc = r.loop.incrementIndex → CountsUp machine r s) ∧
    (r.Holds s.pc → ∀ t ∈ nextState? machine r.instructions s, r.Holds t.pc →
      KeepsLoop machine r s t) ∧
    (¬ r.Holds s.pc → ∀ t ∈ nextState? machine r.instructions s, t.pc = r.h →
      EntersLoop machine r t))
    ⟨fun ⟨hAddress, hGuard, hCounted, hKept, hEntered⟩ =>
        ⟨hAddress, hGuard, hCounted, hKept, hEntered⟩,
      fun ⟨hAddress, hGuard, hCounted, hKept, hEntered⟩ =>
        ⟨hAddress, hGuard, hCounted, hKept, hEntered⟩⟩

end Conditions

-- ---
-- Places
-- ---

def PtrRewrite.landing (r : PtrRewrite) (p : Nat) : Nat :=
  placeOf r.emit r.instructions p +
    if p = r.h then (inductionPrelude r.instructions r.h r.loop r.bindings).length else 0

section Places

variable {r : PtrRewrite} {p : Nat}

theorem PtrRewrite.code_eq (hIs : IsInductionLoop r.instructions r.h r.loop) :
    r.code = expanded r.emit r.instructions :=
  inductionCode_eq hIs.headerAt

theorem PtrRewrite.landing_of_ne (hNe : p ≠ r.h) :
    r.landing p = placeOf r.emit r.instructions p := by
  rw [PtrRewrite.landing, if_neg hNe, Nat.add_zero]

theorem PtrRewrite.drops_inside (hDrops : r.drops p c = true) :
    p ≠ r.loop.incrementIndex ∧ r.loop.branchIndex < p ∧ p < r.loop.jumpIndex := by
  simp only [PtrRewrite.drops, dropsAt, Bool.and_eq_true, bne_iff_ne, decide_eq_true_eq] at hDrops
  exact ⟨hDrops.1.1.1, hDrops.1.1.2, hDrops.1.2⟩

theorem PtrRewrite.emit_plain (hNot : p ≠ r.loop.incrementIndex) (hKept : r.drops p c = false) :
    r.emit p c = (if p = r.h then inductionPrelude r.instructions r.h r.loop r.bindings else []) ++
      [if p < r.h then c else r.rewrite c] := by
  have hDrops : dropsAt r.h r.loop r.bindings p c = false := hKept
  rw [PtrRewrite.emit, inductionEmitAll, inductionEmit, if_neg hNot, hDrops,
    if_neg Bool.false_ne_true]
  split
  · rename_i hLt
    rw [if_neg (by omega), nil_append]
  · rfl

section

variable (hIs : IsInductionLoop r.instructions r.h r.loop)
include hIs

theorem PtrRewrite.at_plain (hc : r.instructions[p]? = some c) (hNot : p ≠ r.loop.incrementIndex)
    (hKept : r.drops p c = false) :
    r.code[r.landing p]? = some (if p < r.h then c else r.rewrite c) ∧
      placeOf r.emit r.instructions (p + 1) = r.landing p + 1 := by
  have hBlock : BlockAt (expanded r.emit r.instructions) _ _ := expanded_block hc
  have hNext : placeOf r.emit r.instructions (p + 1) = _ := placeOf_succ hc
  rw [PtrRewrite.emit_plain hNot hKept] at hBlock hNext
  rw [← PtrRewrite.code_eq hIs] at hBlock
  rw [length_append, length_singleton] at hNext
  refine ⟨?_, ?_⟩
  · have hAt := hBlock.right.head
    unfold PtrRewrite.landing
    split at hAt
    · rename_i hEq
      rw [if_pos hEq]
      exact hAt
    · rename_i hNe
      rw [if_neg hNe]
      exact hAt
  · rw [hNext, PtrRewrite.landing]
    split <;> rfl

theorem PtrRewrite.at_dropped (hc : r.instructions[p]? = some c) (hDrops : r.drops p c = true) :
    placeOf r.emit r.instructions (p + 1) = placeOf r.emit r.instructions p := by
  obtain ⟨hNot, hLow, -⟩ := PtrRewrite.drops_inside hDrops
  have hAfter := hIs.afterHeader
  have hAfter' := hIs.afterCompare
  have hDropsAt : dropsAt r.h r.loop r.bindings p c = true := hDrops
  rw [placeOf_succ hc, PtrRewrite.emit, inductionEmitAll, if_neg (by omega), if_neg (by omega),
    inductionEmit, if_neg hNot, if_pos hDropsAt]
  rfl

theorem PtrRewrite.at_increment (hc : r.instructions[r.loop.incrementIndex]? = some c) :
    BlockAt r.code (placeOf r.emit r.instructions r.loop.incrementIndex)
        (r.bindings.map stepPointer ++ [c]) ∧
      placeOf r.emit r.instructions (r.loop.incrementIndex + 1) =
        placeOf r.emit r.instructions r.loop.incrementIndex + r.bindings.length + 1 := by
  have hAfter := hIs.afterHeader
  have hAfter' := hIs.afterCompare
  have hAfter'' := hIs.afterBranch
  have hEmit : r.emit r.loop.incrementIndex c = r.bindings.map stepPointer ++ [c] := by
    rw [PtrRewrite.emit, inductionEmitAll, if_neg (by omega), if_neg (by omega), inductionEmit,
      if_pos rfl]
    rfl
  have hBlock : BlockAt (expanded r.emit r.instructions) _ _ := expanded_block hc
  rw [← PtrRewrite.code_eq hIs, hEmit] at hBlock
  refine ⟨hBlock, ?_⟩
  rw [placeOf_succ hc, hEmit, length_append, length_map, length_singleton, Nat.add_assoc]

theorem PtrRewrite.at_header : BlockAt r.code (placeOf r.emit r.instructions r.h)
      (inductionPrelude r.instructions r.h r.loop r.bindings) := by
  obtain ⟨c, hc⟩ : ∃ c, r.instructions[r.h]? = some c :=
    ⟨_, getElem?_eq_getElem hIs.headerAt⟩
  have hBlock : BlockAt (expanded r.emit r.instructions) _ _ := expanded_block hc
  have hEmit : r.emit r.h c = inductionPrelude r.instructions r.h r.loop r.bindings ++
      inductionEmit r.h r.loop r.bindings r.h c := by
    rw [PtrRewrite.emit, inductionEmitAll, if_neg (Nat.lt_irrefl _), if_pos rfl]
  rw [← PtrRewrite.code_eq hIs, hEmit] at hBlock
  exact hBlock.left

end

theorem findIdx?_no_label {block : List IRInstruction} {name : String}
    (hBlock : ∀ d ∈ block, d.op ≠ .label) : block.findIdx? (·.isLabel name) = none := by
  rw [findIdx?_eq_none_iff]
  intro d hd
  rw [IRInstruction.isLabel, beq_eq_false_iff_ne.mpr (hBlock d hd), Bool.false_and]

theorem inductionPrelude_no_label (code : List IRInstruction) (h : Nat)
    (loop : InductionLoop) (bindings : List PtrBaseBinding) :
    ∀ d ∈ inductionPrelude code h loop bindings, d.op ≠ .label := by
  intro d hd
  rcases mem_append.mp hd with hd | hd
  · obtain ⟨b, -, hd⟩ := mem_flatMap.mp hd
    simp only [setPointer, mem_cons, not_mem_nil, or_false] at hd
    rcases hd with rfl | rfl <;> exact nofun
  · simp only [setEnd, mem_cons, not_mem_nil, or_false] at hd
    rcases hd with rfl | rfl | rfl | rfl <;> exact nofun

/-- **Where a label went.** -/
theorem PtrRewrite.labelIndex_code {resident : String → Bool} (hSafe : InductionSafe resident r)
    (hIs : IsInductionLoop r.instructions r.h r.loop) (name : String) :
    labelIndex r.code name = (labelIndex r.instructions name).map r.landing := by
  rw [PtrRewrite.code_eq hIs]
  refine expanded_labelIndex ?_
  intro i c hc
  by_cases hIndex : i = r.loop.incrementIndex
  · -- the increment is no label, and neither are the steps
    subst hIndex
    obtain ⟨c', hc', hIncrement⟩ := hIs.incrementAt
    obtain rfl := some.inj (hc'.symm.trans hc)
    have hOp := (isUnitIncrement_spec hIncrement).1
    have hNone : c'.isLabel name = false := by rw [IRInstruction.isLabel, hOp]; rfl
    rw [hNone, if_neg Bool.false_ne_true]
    have hAfter := hIs.afterHeader
    have hAfter' := hIs.afterCompare
    have hAfter'' := hIs.afterBranch
    refine findIdx?_no_label ?_
    intro d hd
    rw [PtrRewrite.emit, inductionEmitAll, if_neg (by omega), if_neg (by omega), inductionEmit,
      if_pos rfl, List.nil_append, List.mem_append, List.mem_map, List.mem_singleton] at hd
    rcases hd with ⟨b, -, rfl⟩ | rfl
    · intro h
      cases h
    · rw [hOp]
      intro h
      cases h
  cases hDrops : r.drops i c with
  | true =>
    have hOp := (hSafe.plain i c hc hDrops).1
    have hNone : c.isLabel name = false := by
      rw [IRInstruction.isLabel]
      cases hCase : c.op <;> rw [hCase] at hOp <;> first | rfl | exact absurd hOp (by decide)
    obtain ⟨-, hLow, -⟩ := PtrRewrite.drops_inside hDrops
    have hAfter := hIs.afterHeader
    have hAfter' := hIs.afterCompare
    have hDropsAt : dropsAt r.h r.loop r.bindings i c = true := hDrops
    rw [hNone, if_neg Bool.false_ne_true, PtrRewrite.emit, inductionEmitAll, if_neg (by omega),
      if_neg (by omega), inductionEmit, if_neg hIndex, if_pos hDropsAt]
    rfl
  | false =>
    have hLabel : (if i < r.h then c else r.rewrite c).isLabel name = c.isLabel name := by
      split
      · rfl
      · exact ptrRewrite_isLabel name
    rw [PtrRewrite.emit_plain hIndex hDrops, findIdx?_append, findIdx?_singleton, hLabel]
    split
    · rw [findIdx?_no_label (inductionPrelude_no_label _ _ _ _), none_or]
      split
      · rw [map_some, Nat.zero_add]
      · rfl
    · rw [findIdx?_nil, none_or]
      split <;> rfl

end Places

end Mettle.IR
