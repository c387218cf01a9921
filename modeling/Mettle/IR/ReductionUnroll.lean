import Mathlib.Data.List.Perm.Subperm
import Mettle.IR.PointerInduction

/-!
# Mettle — unrolling sums

The model of `ir_reduction_unroll_pass`: a loop `while (i < n) { acc = acc + e; i = i + 1; }`
whose sum starts at zero is made to do four rounds at a time, each with an accumulator of its own,
and a copy of it does the rounds that are left. After every rewriting the scan starts again.

A header that can be accepted has no label in front of it and a comparison behind it
(`loopHeaders`). A rewriting takes one of these away and makes no new one.
-/

namespace Mettle.IR.Unroll

open List Option

/-- An instruction, and what only this pass looks at. -/
structure UnrollInstruction extends IRInstruction where
  -- the pass has made it; nothing looks at this
  unrolled : Bool := false
  deriving DecidableEq

abbrev Code := List UnrollInstruction

-- ---
-- The matcher
-- ---

def IR_VEC_UNROLL : Nat := 4

/-- `ir_vec_binary_is`. -/
def vecBinaryIs (op : String) (c : UnrollInstruction) : Bool :=
  c.op == .binary && !c.isFloat && !c.astRef && c.text == some op

/-- `ir_vec_assign_sym_from_temp`: the temp. -/
def vecAssignSymFromTemp (symbol : String) (c : UnrollInstruction) : Option String :=
  match c.lhs with
  | .temp t => if c.op = .assign ∧ c.astRef = false ∧ c.dest = .symbol symbol then some t else none
  | _ => none

/-- `ir_vec_symbol_invariant_in_body`. -/
def vecSymbolInvariantInBody (code : Code) (lo hi : Nat) (symbol : String) : Bool :=
  ((code.take hi).drop lo).all fun c => c.dest != .symbol symbol

/-- The first jump behind `h` to the label. -/
def findBackJump (code : Code) (h : Nat) (label : String) : Option Nat :=
  ((code.drop (h + 1)).findIdx? fun c => c.op == .jump && c.text == some label).map (h + 1 + ·)

def isComparison (c : UnrollInstruction) : Bool := vecBinaryIs "<" c || vecBinaryIs "<=" c

def isLoopBound : IROperand → Bool
  | .symbol _ | .int _ => true
  | _ => false

/-- The guard of a loop: counter and exit. -/
def unrollGuard (g branch : UnrollInstruction) : Option (String × String) :=
  match g.dest, g.lhs, branch.text with
  | .temp t, .symbol iv, some exit =>
    if isComparison g = true ∧ isLoopBound g.rhs = true ∧ branch.op = .branchZero ∧
        branch.lhs = .temp t then some (iv, exit)
    else none
  | _, _, _ => none

/-- `t = iv + 1; iv = t`. -/
def isUnrollLatch (iv : String) (increment store : UnrollInstruction) : Bool :=
  match increment.dest with
  | .temp t =>
    vecBinaryIs "+" increment && increment.lhs == .symbol iv && increment.rhs == .int 1 &&
      vecAssignSymFromTemp iv store == some t
  | _ => false

/-- `t = acc + e; acc = t` at `k`: the place, the accumulator and `e`. -/
def accumulatorUpdate (code : Code) (iv : String) (k : Nat) : Option (Nat × String × String) := do
  let add ← code[k]?
  let store ← code[k + 1]?
  match add.dest, add.lhs, add.rhs with
  | .temp t, .symbol acc, .temp root =>
    if vecBinaryIs "+" add = true ∧ acc ≠ iv ∧ vecAssignSymFromTemp acc store = some t then
      some (k, acc, root)
    else none
  | _, _, _ => none

/-- The nearest assignment to the accumulator in front of `h` sets it to zero; a label ends the
search. -/
def accZeroInit (code : Code) (h : Nat) (acc : String) : Bool :=
  ((code.take h).reverse.find? fun c =>
      (c.op == .assign && c.dest == .symbol acc) || c.op == .label).any fun c =>
    c.op == .assign && c.lhs == .int 0

/-- A load of `base[iv]`, of an array that stays where it is in the body: the base. -/
def invariantLoadBase (code : Code) (lo hi : Nat) (iv acc : String) (k : Nat)
    (c : UnrollInstruction) : Option String :=
  match c.lhs with
  | .temp address =>
    (resolveIndexedAddressTemp (code.map (·.toIRInstruction)) k iv address).filter fun base =>
      base != iv && base != acc && vecSymbolInvariantInBody code lo hi base
  | _ => none

/-- The operands of an expression that is neither a load nor anything impure. -/
def pureOperands (c : UnrollInstruction) : Option (List IROperand) :=
  if vecBinaryIs "+" c || vecBinaryIs "-" c || vecBinaryIs "*" c then some [c.lhs, c.rhs]
  else if c.op = .cast ∧ c.isFloat = false then some [c.lhs]
  else none

/-- `ir_vec_expr_is_pure`: the temps it has seen. The first argument is 65 less the depth. -/
def vecExprIsPure (code : Code) (lo hi : Nat) (iv acc : String) :
    Nat → List String → String → Option (List String)
  | 0, _, _ => none
  | depth + 1, seen, root =>
    if root ∈ seen then some seen
    else
      match (List.range' lo (hi - lo)).filter fun k =>
          code[k]?.any fun c => c.dest == .temp root with
      | [k] =>
        code[k]?.bind fun producer =>
          if producer.op = .load then
            (invariantLoadBase code lo hi iv acc k producer).bind fun _ =>
              if seen.length < 128 then some (root :: seen) else none
          else
            (pureOperands producer).bind fun operands =>
              if seen.length < 128 then
                operands.foldlM (fun seen operand =>
                  match operand with
                  | .int _ => some seen
                  | .symbol x => if x = iv then some seen else none
                  | .temp t => vecExprIsPure code lo hi iv acc depth seen t
                  | _ => none) (root :: seen)
              else none
      | _ => none

/-- What the scan of the body finds at `k`, a load's base or nothing; `none` where it gives up. -/
def bodyInstruction (code : Code) (lo hi : Nat) (iv acc : String) (k : Nat) :
    Option (Option String) :=
  code[k]?.bind fun c =>
    match c.op, c.dest with
    | .nop, .symbol _ | .binary, .symbol _ | .cast, .symbol _ => none
    | .nop, _ | .binary, _ | .cast, _ => some none
    | .load, .temp _ => (invariantLoadBase code lo hi iv acc k c).map some
    | _, _ => none

structure ReductionLoop where
  header : UnrollInstruction
  head : String
  exit : String
  iv : String
  acc : String
  jumpIndex : Nat
  guard : UnrollInstruction
  deriving DecidableEq

/-- The loop that `ir_vec_try_unroll_reduction_at` accepts at `h`. -/
def reductionLoopAt (function : IRFunction) (code : Code) (h : Nat) : Option ReductionLoop := do
  let header ← code[h]?
  let head ← header.labelName
  let jumpIndex ← findBackJump code h head
  let guard ← code[h + 1]?
  let branch ← code[h + 2]?
  let (iv, exit) ← unrollGuard guard branch
  let increment ← code[jumpIndex - 2]?
  let store ← code[jumpIndex - 1]?
  let lo := h + 3
  let hi := jumpIndex - 2
  match (List.range' lo (hi - lo)).filterMap (accumulatorUpdate code iv) with
  | [(accIndex, acc, root)] =>
    let body := (List.range' lo (hi - lo)).filter fun k => k ≠ accIndex ∧ k ≠ accIndex + 1
    let bases := body.filterMap fun k => (bodyInstruction code lo hi iv acc k).join
    let plain := { function with instructions := code.map (·.toIRInstruction) }
    if h + 5 ≤ jumpIndex ∧ isUnrollLatch iv increment store = true ∧
        accZeroInit code h acc = true ∧ (vecExprIsPure code lo hi iv acc 65 [] root).isSome = true ∧
        (body.all fun k => (bodyInstruction code lo hi iv acc k).isSome) = true ∧
        -- the kernel for sums of arrays is left its loops
        ¬(bases ≠ [] ∧ (bases.all (symbolIsSumArrayBase plain)) = true ∧
          localDeclaredType plain.instructions acc = some "int64") then
      some { header, head, exit, iv, acc, jumpIndex, guard }
    else none
  | _ => none

-- ---
-- The rewriting
-- ---

def mark (c : IRInstruction) : UnrollInstruction := { toIRInstruction := c, unrolled := true }

def madeBinary (op : String) (dest lhs rhs : IROperand) : UnrollInstruction :=
  mark { op := .binary, text := some op, dest, lhs, rhs }

def madeLabel (name : String) : UnrollInstruction := mark { op := .label, text := some name }

/-- Names that the rewriting at `h` makes up. -/
def unrollName (h : Nat) (suffix : String) : String := "vu" ++ toString h ++ "_" ++ suffix

/-- The accumulator of a lane; a buffer of 96 characters. -/
def accName (acc : String) (lane : Nat) : String :=
  if lane = 0 then acc else String.ofList ((acc ++ "__a" ++ toString lane).toList.take 95)

/-- The operands that a clone is renamed in: all but the arguments from the ninth on. -/
def mapOperands (f : IROperand → IROperand) (c : UnrollInstruction) : UnrollInstruction :=
  { c with
    dest := f c.dest, lhs := f c.lhs, rhs := f c.rhs
    arguments := (c.arguments.take 8).map f ++ c.arguments.drop 8 }

/-- `ir_vec_clone_body_inst`. -/
def vecCloneBodyInst (lane : Nat) (acc : String) (c : UnrollInstruction) : UnrollInstruction :=
  { mapOperands (fun
      | .temp t => .temp (t ++ "__l" ++ toString lane)
      | .symbol x => .symbol (if x = acc then accName acc lane else x)
      | operand => operand) c with unrolled := true }

def unrollLane (h : Nat) (loop : ReductionLoop) (body : Code) (lane : Nat) : Code :=
  let clones := body.map (vecCloneBodyInst lane loop.acc)
  let ti := unrollName h ("ti" ++ toString lane)
  if lane = 0 then clones
  else
    madeBinary "+" (.temp ti) (.symbol loop.iv) (.int lane) :: clones.map (mapOperands fun
      | .symbol x => if x = loop.iv then .temp ti else .symbol x
      | operand => operand)

def declareLanes (type acc : String) : Code :=
  (List.range' 1 (IR_VEC_UNROLL - 1)).flatMap fun lane =>
    [mark { op := .declareLocal, dest := .symbol (accName acc lane), text := some type },
     mark { op := .assign, dest := .symbol (accName acc lane), lhs := .int 0 }]

/-- The loop that does four rounds at a time. -/
def mainLoop (h : Nat) (loop : ReductionLoop) (body : Code) : Code :=
  madeLabel (unrollName h "main") ::
  madeBinary "+" (.temp (unrollName h "ub")) (.symbol loop.iv) (.int (IR_VEC_UNROLL - 1)) ::
  madeBinary (loop.guard.text.getD "") (.temp (unrollName h "gu")) (.temp (unrollName h "ub"))
    loop.guard.rhs ::
  mark { op := .branchZero, lhs := .temp (unrollName h "gu")
         text := some (unrollName h "tail") } ::
  ((List.range IR_VEC_UNROLL).flatMap (unrollLane h loop body) ++
    [madeBinary "+" (.temp (unrollName h "st")) (.symbol loop.iv) (.int IR_VEC_UNROLL),
     mark { op := .assign, dest := .symbol loop.iv, lhs := .temp (unrollName h "st") },
     mark { op := .jump, text := some (unrollName h "main") }])

/-- An instruction of the copy that does the rounds left over: header and exit are renamed. -/
def tailClone (h : Nat) (loop : ReductionLoop) (c : UnrollInstruction) : UnrollInstruction :=
  { c with
    unrolled := true
    text :=
      if (c.op = .label ∨ c.op = .jump) ∧ c.text = some loop.head then some (unrollName h "sh")
      else if c.op = .branchZero ∧ c.text = some loop.exit then some (unrollName h "comb")
      else c.text }

def combineLanes (h : Nat) (acc : String) : Code :=
  (List.range' 1 (IR_VEC_UNROLL - 1)).flatMap fun lane =>
    [madeBinary "+" (.temp (unrollName h ("c" ++ toString lane))) (.symbol acc)
      (.symbol (accName acc lane)),
     mark { op := .assign, dest := .symbol acc
            lhs := .temp (unrollName h ("c" ++ toString lane)) }]

/-- What takes the place of the loop. -/
def unrolledLoop (code : Code) (h : Nat) (loop : ReductionLoop) : Code :=
  let type := (localDeclaredType (code.map (·.toIRInstruction)) loop.acc).getD "int64"
  declareLanes type loop.acc ++ mainLoop h loop ((code.take (loop.jumpIndex - 2)).drop (h + 3)) ++
    madeLabel (unrollName h "tail") ::
      ((code.take (loop.jumpIndex + 1)).drop h).map (tailClone h loop) ++
    madeLabel (unrollName h "comb") :: combineLanes h loop.acc

def unrollReduction (code : Code) (h : Nat) (loop : ReductionLoop) : Code :=
  code.take h ++ unrolledLoop code h loop ++ code.drop (loop.jumpIndex + 1)

/-- `ir_reduction_unroll_pass` from `h` on: whether it succeeds, the code, and the headers of the
loops unrolled. The `n`th rewriting may find no memory; without fuel there is no result. -/
def reductionUnrollScan (function : IRFunction) (allocated : Nat → Bool) :
    Nat → Nat → Code → Code → Option (Bool × Code × Code)
  | 0, _, _, _ => none
  | fuel + 1, h, code, done =>
    if code.length ≤ h + 5 then some (true, code, done)
    else
      match reductionLoopAt function code h with
      | none => reductionUnrollScan function allocated fuel (h + 1) code done
      | some loop =>
        if allocated done.length = false then some (false, code, done)
        else
          let next := unrollReduction code h loop
          reductionUnrollScan function allocated fuel
            (if next.length = code.length then h + 1 else 0) next (done ++ [loop.header])

/-- Unrolls from the first label on. -/
def irReductionUnrollPass (function : IRFunction) (allocated : Nat → Bool) (fuel : Nat)
    (code : Code) : Option (Bool × Code × Code) :=
  reductionUnrollScan function allocated fuel 0 code []

-- ---
-- Headers that can be accepted
-- ---

/-- Behind an instruction: `none` if it is no label, else the label if it can be a header. -/
abbrev HeadState := Option (Option UnrollInstruction)

/-- The start of the function counts as a label. -/
def HeadState.start : HeadState := some none

def headStep (before : HeadState) (c : UnrollInstruction) : HeadState :=
  if c.op = .label then some (if before.isNone then some c else none) else none

/-- The labels with no label in front of them and a comparison behind them. -/
def loopHeaders : HeadState → Code → Code
  | _, [] => []
  | before, c :: rest =>
    (if isComparison c then before.join.toList else []) ++ loopHeaders (headStep before c) rest

variable {function : IRFunction} {code : Code} {h : Nat} {loop : ReductionLoop} {before : HeadState}

theorem loopHeaders_append (front back : Code) : loopHeaders before (front ++ back) =
      loopHeaders before front ++ loopHeaders (front.foldl headStep before) back := by
  induction front generalizing before with
  | nil => rfl
  | cons c front ih => rw [cons_append, loopHeaders, loopHeaders, ih, append_assoc, foldl_cons]

variable {c : UnrollInstruction}

theorem mem_of_loopHeaders (hc : c ∈ loopHeaders before code) :
    before.join = some c ∨ c ∈ code := by
  induction code generalizing before with
  | nil => cases hc
  | cons d rest ih =>
    rcases mem_append.mp hc with hc | hc
    · split at hc
      · exact .inl (mem_toList.mp hc)
      · cases hc
    · refine .inr (mem_cons.mpr ((ih hc).imp_left fun hBefore => ?_))
      unfold headStep at hBefore
      split_ifs at hBefore <;> cases hBefore
      rfl

def NoLabels (code : Code) : Prop := ∀ c ∈ code, c.op ≠ .label

theorem headStep_other (hOp : c.op ≠ .label) : headStep before c = none := if_neg hOp

/-- Code that has no header and ends in no label. -/
def Quiet (before : HeadState) (code : Code) : Prop :=
  loopHeaders before code = [] ∧ code.foldl headStep before = none

theorem Quiet.append {back : Code} (hFront : Quiet before code)
    (hBack : Quiet none back) : Quiet before (code ++ back) := by
  unfold Quiet
  rw [loopHeaders_append, foldl_append, hFront.1, hFront.2]
  exact hBack

/-- An instruction that is no comparison, or does not stand behind a header. -/
theorem Quiet.cons (hOp : c.op ≠ .label)
    (hFirst : isComparison c = false ∨ before.join = none) (hRest : Quiet none code) :
    Quiet before (c :: code) := by
  unfold Quiet
  rw [loopHeaders, foldl_cons, headStep_other hOp, hRest.1]
  refine ⟨?_, hRest.2⟩
  rcases hFirst with hFirst | hFirst <;> simp [hFirst]

theorem Quiet.label (hOp : c.op = .label)
    (hRest : Quiet (some (if before.isNone then some c else none)) code) :
    Quiet before (c :: code) := by
  have hNot : isComparison c = false := by simp [isComparison, vecBinaryIs, hOp]
  unfold Quiet
  rw [loopHeaders, foldl_cons, headStep, if_pos hOp, hNot]
  exact hRest

theorem NoLabels.quiet (hNone : NoLabels code) : Quiet none code := by
  induction code with
  | nil => exact ⟨rfl, rfl⟩
  | cons c rest ih =>
    obtain ⟨hOp, hRest⟩ := forall_mem_cons.mp hNone
    exact .cons hOp (.inr rfl) (ih hRest)

theorem foldl_headStep_take (hAt : (code.take h).getLast? = some c)
    (hOp : c.op ≠ .label) : (code.take h).foldl headStep before = none := by
  obtain ⟨front, hFront⟩ := getLast?_eq_some_iff.mp hAt
  rw [hFront, foldl_append]
  exact headStep_other hOp

-- ---
-- What is accepted
-- ---

/-- A loop that is accepted: the header is one of `loopHeaders`, and the rest has no label. -/
structure Accepted (code : Code) (h : Nat) (loop : ReductionLoop) : Prop where
  headerAt : code[h]? = some loop.header
  isLabel : loop.header.op = .label
  guardAt : code[h + 1]? = some loop.guard
  compares : isComparison loop.guard = true
  inFront : ∃ c, (code.take h).getLast? = some c ∧ c.op ≠ .label
  inside : ∀ k, h < k → k ≤ loop.jumpIndex → ∀ c, code[k]? = some c → c.op ≠ .label
  after : h + 5 ≤ loop.jumpIndex

theorem vecBinaryIs_op {op : String} (hIs : vecBinaryIs op c = true) : c.op = .binary := by
  simp only [vecBinaryIs, Bool.and_eq_true, beq_iff_eq] at hIs
  exact hIs.1.1.1

theorem isComparison_op (hIs : isComparison c = true) : c.op = .binary :=
  (Bool.or_eq_true_iff.mp hIs).elim vecBinaryIs_op vecBinaryIs_op

theorem vecAssignSymFromTemp_op {symbol t : String}
    (hIs : vecAssignSymFromTemp symbol c = some t) : c.op = .assign := by
  unfold vecAssignSymFromTemp at hIs
  split at hIs
  · split at hIs
    · rename_i hAll
      exact hAll.1
    · cases hIs
  · cases hIs

theorem unrollGuard_spec {g branch : UnrollInstruction} {iv exit : String}
    (hGuard : unrollGuard g branch = some (iv, exit)) :
    isComparison g = true ∧ branch.op = .branchZero := by
  unfold unrollGuard at hGuard
  split at hGuard
  · split at hGuard
    · rename_i hAll
      exact ⟨hAll.1, hAll.2.2.1⟩
    · cases hGuard
  · cases hGuard

theorem isUnrollLatch_spec {iv : String} {increment store : UnrollInstruction}
    (hLatch : isUnrollLatch iv increment store = true) :
    increment.op = .binary ∧ store.op = .assign := by
  unfold isUnrollLatch at hLatch
  split at hLatch
  · simp only [Bool.and_eq_true, beq_iff_eq] at hLatch
    exact ⟨vecBinaryIs_op hLatch.1.1.1, vecAssignSymFromTemp_op hLatch.2⟩
  · cases hLatch

theorem accumulatorUpdate_spec {iv acc root : String} {k j : Nat}
    (hUpdate : accumulatorUpdate code iv k = some (j, acc, root)) :
    j = k ∧ (∃ c, code[k]? = some c ∧ c.op = .binary) ∧
      ∃ c, code[k + 1]? = some c ∧ c.op = .assign := by
  unfold accumulatorUpdate at hUpdate
  obtain ⟨add, hAdd, hUpdate⟩ := bind_eq_some_iff.mp hUpdate
  obtain ⟨store, hStore, hUpdate⟩ := bind_eq_some_iff.mp hUpdate
  split at hUpdate
  · split at hUpdate
    · rename_i hAll
      cases hUpdate
      exact ⟨rfl, ⟨add, hAdd, vecBinaryIs_op hAll.1⟩,
        ⟨store, hStore, vecAssignSymFromTemp_op hAll.2.2⟩⟩
    · cases hUpdate
  · cases hUpdate

theorem bodyInstruction_op {lo hi k : Nat} {iv acc : String}
    (hSome : (bodyInstruction code lo hi iv acc k).isSome = true) (hAt : code[k]? = some c) :
    c.op ≠ .label := by
  intro hOp
  rw [bodyInstruction, hAt, Option.bind_some, hOp] at hSome
  cases hSome

theorem findBackJump_spec {label : String} {k : Nat} (hJump : findBackJump code h label = some k) :
    h < k ∧ ∃ c, code[k]? = some c ∧ c.op = .jump := by
  obtain ⟨d, hd, rfl⟩ := map_eq_some_iff.mp hJump
  obtain ⟨hLt, hIs, -⟩ := findIdx?_eq_some_iff_getElem.mp hd
  refine ⟨by omega, (code.drop (h + 1))[d], ?_, ?_⟩
  · rw [← List.getElem?_drop, List.getElem?_eq_getElem hLt]
  · simp only [Bool.and_eq_true, beq_iff_eq] at hIs
    exact hIs.1

theorem accZeroInit_spec {acc : String} (hZero : accZeroInit code h acc = true) :
    ∃ c, (code.take h).getLast? = some c ∧ c.op ≠ .label := by
  unfold accZeroInit at hZero
  rw [getLast?_eq_head?_reverse]
  cases hFront : (code.take h).reverse with
  | nil =>
    rw [hFront] at hZero
    cases hZero
  | cons c rest =>
    refine ⟨c, rfl, fun hOp => ?_⟩
    rw [hFront, find?_cons_of_pos (by rw [hOp]; simp), Option.any_some, hOp] at hZero
    cases hZero

theorem reductionLoopAt_accepted (hLoop : reductionLoopAt function code h = some loop) :
    Accepted code h loop := by
  unfold reductionLoopAt at hLoop
  dsimp only [bind_eq_bind] at hLoop
  simp only [↓bind_eq_some_iff] at hLoop
  obtain ⟨header, hHeader, head, hHead, jumpIndex, hJump, guard, hGuardAt, branch, hBranch,
    ⟨iv, exit⟩, hGuard, increment, hIncrement, store, hStore, hEnd⟩ := hLoop
  split at hEnd
  · rename_i accIndex acc root hUpdates
    split at hEnd
    · rename_i hAll
      obtain ⟨hAfter, hLatch, hZero, -, hBody, -⟩ := hAll
      cases hEnd
      obtain ⟨hCompares, hBranchOp⟩ := unrollGuard_spec hGuard
      obtain ⟨hIncrementOp, hStoreOp⟩ := isUnrollLatch_spec hLatch
      obtain ⟨-, jump, hJumpAt, hJumpOp⟩ := findBackJump_spec hJump
      have hUpdate : (accIndex, acc, root) ∈ [(accIndex, acc, root)] := mem_singleton_self _
      rw [← hUpdates, mem_filterMap] at hUpdate
      obtain ⟨k, -, hUpdate⟩ := hUpdate
      obtain ⟨rfl, ⟨add, hAdd, hAddOp⟩, sum, hSum, hSumOp⟩ := accumulatorUpdate_spec hUpdate
      refine ⟨hHeader, ?_, hGuardAt, hCompares, accZeroInit_spec hZero, ?_, hAfter⟩
      · unfold IRInstruction.labelName at hHead
        split at hHead
        · assumption
        · cases hHead
      · intro k hLo hHi c hc hOp
        -- the places with a fixed kind of instruction, then the rest of the body
        have hFixed : ∀ {j : Nat} {d : UnrollInstruction} {op : IROpcode}, code[j]? = some d →
            d.op = op → op ≠ .label → k ≠ j := by
          rintro j d op hd rfl hNot rfl
          exact hNot (Option.some.inj (hd.symm.trans hc) ▸ hOp)
        have h₁ := hFixed hGuardAt (isComparison_op hCompares) nofun
        have h₂ := hFixed hBranch hBranchOp nofun
        have h₃ := hFixed hIncrement hIncrementOp nofun
        have h₄ := hFixed hStore hStoreOp nofun
        have h₅ := hFixed hJumpAt hJumpOp nofun
        have h₆ := hFixed hAdd hAddOp nofun
        have h₇ := hFixed hSum hSumOp nofun
        dsimp only at hHi
        have hMem : k ∈ (List.range' (h + 3) (jumpIndex - 2 - (h + 3))).filter fun k =>
            k ≠ accIndex ∧ k ≠ accIndex + 1 :=
          mem_filter.mpr ⟨mem_range'_1.mpr (by omega), decide_eq_true ⟨h₆, h₇⟩⟩
        exact bodyInstruction_op (all_eq_true.mp hBody k hMem) hc hOp
    · cases hEnd
  · cases hEnd

-- ---
-- One rewriting
-- ---

theorem Accepted.noLabels (hLoop : Accepted code h loop) {lo hi : Nat} (hLo : h < lo)
    (hHi : hi ≤ loop.jumpIndex + 1) : NoLabels ((code.take hi).drop lo) := by
  intro c hc
  obtain ⟨d, hd⟩ := mem_iff_getElem?.mp hc
  rw [List.getElem?_drop, List.getElem?_take] at hd
  split at hd
  · exact hLoop.inside (lo + d) (by omega) (by omega) c hd
  · cases hd

/-- The old loop: the header, and the guard in front of the rest. -/
theorem Accepted.span (hLoop : Accepted code h loop) :
    ∃ rest, (code.take (loop.jumpIndex + 1)).drop h = loop.header :: loop.guard :: rest ∧
      NoLabels (loop.guard :: rest) := by
  have hAfter := hLoop.after
  have hAt : ∀ k, k ≤ loop.jumpIndex → (code.take (loop.jumpIndex + 1))[k]? = code[k]? :=
    fun k hk => getElem?_take_of_lt (Nat.lt_succ_of_le hk)
  have hTail : (code.take (loop.jumpIndex + 1)).drop (h + 1) =
      loop.guard :: (code.take (loop.jumpIndex + 1)).drop (h + 2) := by
    rw [drop_eq_getElem?_toList_append, (hAt (h + 1) (by omega)).trans hLoop.guardAt]
    rfl
  refine ⟨(code.take (loop.jumpIndex + 1)).drop (h + 2), ?_, ?_⟩
  · rw [drop_eq_getElem?_toList_append, (hAt h (by omega)).trans hLoop.headerAt, hTail]
    rfl
  · rw [← hTail]
    exact hLoop.noLabels (Nat.lt_succ_self h) (Nat.le_refl _)

variable {body rest : Code}

theorem NoLabels.map {f : UnrollInstruction → UnrollInstruction} (hNone : NoLabels code)
    (hOp : ∀ c, (f c).op = c.op) : NoLabels (code.map f) := by
  intro c hc
  obtain ⟨d, hd, rfl⟩ := mem_map.mp hc
  rw [hOp]
  exact hNone d hd

theorem NoLabels.flatMap {lanes : List Nat} {f : Nat → Code}
    (hEach : ∀ lane, NoLabels (f lane)) : NoLabels (lanes.flatMap f) := by
  intro c hc
  obtain ⟨lane, -, hc⟩ := mem_flatMap.mp hc
  exact hEach lane c hc

theorem unrollLane_noLabels (hBody : NoLabels body) (lane : Nat) :
    NoLabels (unrollLane h loop body lane) := by
  have hClones : NoLabels (body.map (vecCloneBodyInst lane loop.acc)) := hBody.map fun _ => rfl
  unfold unrollLane
  dsimp only
  split
  · exact hClones
  · exact forall_mem_cons.mpr ⟨nofun, hClones.map fun _ => rfl⟩

theorem isComparison_plus (dest lhs rhs : IROperand) :
    isComparison (madeBinary "+" dest lhs rhs) = false := by
  simp [isComparison, vecBinaryIs, madeBinary, mark]

theorem mainLoop_quiet (hBody : NoLabels body) : Quiet none (mainLoop h loop body) := by
  have hLanes : NoLabels ((List.range IR_VEC_UNROLL).flatMap (unrollLane h loop body)) :=
    .flatMap (unrollLane_noLabels hBody)
  unfold mainLoop
  refine .label rfl (.cons nofun (.inl (isComparison_plus _ _ _)) (.cons nofun (.inr rfl)
    (.cons nofun (.inr rfl) (hLanes.quiet.append (NoLabels.quiet ?_)))))
  simp [NoLabels, madeBinary, mark]

theorem combineLanes_quiet (acc name : String) :
    Quiet none (madeLabel name :: combineLanes h acc) := by
  have hNone : NoLabels (combineLanes h acc) := .flatMap fun _ => by
    simp [NoLabels, madeBinary, mark]
  exact .label rfl (.cons nofun (.inl (isComparison_plus _ _ _))
    (NoLabels.quiet (forall_mem_cons.mp hNone).2))

theorem unrolledLoop_quiet (hLoop : Accepted code h loop) :
    Quiet none (unrolledLoop code h loop) := by
  have hAfter := hLoop.after
  obtain ⟨rest, hSpan, hRest⟩ := hLoop.span
  obtain ⟨hGuard, hRest⟩ := forall_mem_cons.mp hRest
  have hDeclare (type : String) : NoLabels (declareLanes type loop.acc) := .flatMap fun _ => by
    simp [NoLabels, mark]
  have hMain := @mainLoop_quiet h loop _
    (hLoop.noLabels (show h < h + 3 by omega) (show loop.jumpIndex - 2 ≤ _ by omega))
  unfold unrolledLoop
  rw [hSpan]
  refine (((hDeclare _).quiet.append hMain).append ?_).append (combineLanes_quiet _ _)
  -- the header of the copy stands behind a label
  exact .label rfl (.label hLoop.isLabel (.cons hGuard (.inr rfl)
    (NoLabels.quiet (NoLabels.map hRest fun _ => rfl))))

theorem Accepted.oldLoop (hLoop : Accepted code h loop) {rest : Code}
    (hRest : NoLabels (loop.guard :: rest)) :
    loopHeaders none (loop.header :: loop.guard :: rest) = [loop.header] ∧
      (loop.header :: loop.guard :: rest).foldl headStep none = none := by
  obtain ⟨hGuard, hRest⟩ := forall_mem_cons.mp hRest
  obtain ⟨hQuiet, hNone⟩ := NoLabels.quiet hRest
  have hHeader : isComparison loop.header = false := by
    simp [isComparison, vecBinaryIs, hLoop.isLabel]
  rw [loopHeaders, loopHeaders, foldl_cons, foldl_cons, headStep_other hGuard, hQuiet, hNone,
    hLoop.compares, hHeader, headStep, if_pos hLoop.isLabel]
  exact ⟨rfl, rfl⟩

/-- **A rewriting takes one header away and makes no new one.** -/
theorem unroll_headers (hLoop : Accepted code h loop) :
    ∃ front back, loopHeaders .start code = front ++ loop.header :: back ∧
      loopHeaders .start (unrollReduction code h loop) = front ++ back := by
  obtain ⟨c, hLast, hOp⟩ := hLoop.inFront
  obtain ⟨rest, hSpan, hRest⟩ := hLoop.span
  have hAfter := hLoop.after
  have hFront := @foldl_headStep_take _ _ .start _ hLast hOp
  have hCode : code.take h ++ (loop.header :: loop.guard :: rest) ++
      code.drop (loop.jumpIndex + 1) = code := by
    rw [← hSpan, show code.take h = (code.take (loop.jumpIndex + 1)).take h by
      rw [take_take, Nat.min_eq_left (by omega)], take_append_drop, take_append_drop]
  have hParts : ∀ middle, middle.foldl headStep none = none →
      loopHeaders .start (code.take h ++ middle ++ code.drop (loop.jumpIndex + 1)) =
        loopHeaders .start (code.take h) ++
          (loopHeaders none middle ++ loopHeaders none (code.drop (loop.jumpIndex + 1))) := by
    intro middle hMiddle
    rw [append_assoc, loopHeaders_append, loopHeaders_append, hFront, hMiddle]
  obtain ⟨hOld, hOldEnd⟩ := hLoop.oldLoop hRest
  obtain ⟨hNew, hNewEnd⟩ := unrolledLoop_quiet hLoop
  refine ⟨loopHeaders .start (code.take h), loopHeaders none (code.drop (loop.jumpIndex + 1)),
    ?_, (hParts _ hNewEnd).trans (by rw [hNew, nil_append])⟩
  rw [← singleton_append, ← hOld, ← hParts _ hOldEnd, hCode]

-- ---
-- The pass
-- ---

/-- The scan ends, and the loops it unrolls are different headers of the code it starts with. -/
def ScanEnds (function : IRFunction) (allocated : Nat → Bool) (code : Code) (h : Nat)
    (done : Code) : Prop :=
  ∃ n ok last unrolled, (∀ fuel, n ≤ fuel → reductionUnrollScan function allocated fuel h code
    done = some (ok, last, done ++ unrolled)) ∧ unrolled <+~ loopHeaders .start code

theorem scan_ends (allocated : Nat → Bool) (code : Code) (h : Nat) (done : Code) :
    ScanEnds function allocated code h done := by
  have hStop (ok : Bool) (hScan : ∀ fuel, reductionUnrollScan function allocated (fuel + 1) h code
      done = some (ok, code, done)) : ScanEnds function allocated code h done := by
    refine ⟨1, ok, code, [], fun fuel hFuel => ?_, nil_subperm⟩
    obtain ⟨fuel, rfl⟩ := Nat.exists_eq_add_of_le' hFuel
    rw [hScan, append_nil]
  by_cases hEnd : code.length ≤ h + 5
  · exact hStop true fun fuel => by rw [reductionUnrollScan, if_pos hEnd]
  · cases hLoop : reductionLoopAt function code h with
    | none =>
      obtain ⟨n, ok, last, unrolled, hScan, hHeaders⟩ := scan_ends allocated code (h + 1) done
      refine ⟨n + 1, ok, last, unrolled, fun fuel hFuel => ?_, hHeaders⟩
      obtain ⟨fuel, rfl⟩ := Nat.exists_eq_add_of_le' (Nat.le_of_add_left_le hFuel)
      rw [reductionUnrollScan, if_neg hEnd, hLoop]
      exact hScan fuel (by omega)
    | some loop =>
      by_cases hFails : allocated done.length = false
      · exact hStop false fun fuel => by
          rw [reductionUnrollScan, if_neg hEnd, hLoop]
          exact if_pos hFails
      · obtain ⟨front, back, hOld, hNew⟩ := unroll_headers (reductionLoopAt_accepted hLoop)
        have hFewer : (loopHeaders .start (unrollReduction code h loop)).length <
            (loopHeaders .start code).length := by
          rw [hOld, hNew, length_append, length_append, length_cons]
          omega
        obtain ⟨n, ok, last, unrolled, hScan, hHeaders⟩ := scan_ends allocated
          (unrollReduction code h loop)
          (if (unrollReduction code h loop).length = code.length then h + 1 else 0)
          (done ++ [loop.header])
        refine ⟨n + 1, ok, last, loop.header :: unrolled, fun fuel hFuel => ?_, ?_⟩
        · obtain ⟨fuel, rfl⟩ := Nat.exists_eq_add_of_le' (Nat.le_of_add_left_le hFuel)
          rw [reductionUnrollScan, if_neg hEnd, hLoop, append_cons]
          exact (if_neg hFails).trans (hScan fuel (by omega))
        · rw [hOld]
          rw [hNew] at hHeaders
          exact ((subperm_cons loop.header).mpr hHeaders).trans perm_middle.symm.subperm
termination_by ((loopHeaders .start code).length, code.length - h)
decreasing_by
  · exact Prod.Lex.right _ (by omega)
  · exact Prod.Lex.left _ _ hFewer

/-- A scan that unrolls nothing leaves the code alone. -/
theorem scan_unchanged {allocated : Nat → Bool} {fuel h : Nat} {code done last unrolled : Code}
    {ok : Bool} (hScan : reductionUnrollScan function allocated fuel h code done =
      some (ok, last, unrolled)) :
    done.length ≤ unrolled.length ∧ (unrolled.length = done.length → last = code) := by
  induction fuel generalizing h code done with
  | zero => cases hScan
  | succ fuel ih =>
    rw [reductionUnrollScan] at hScan
    by_cases hEnd : code.length ≤ h + 5
    · rw [if_pos hEnd] at hScan
      cases hScan
      exact ⟨Nat.le_refl _, fun _ => rfl⟩
    rw [if_neg hEnd] at hScan
    cases hLoop : reductionLoopAt function code h with
    | none =>
      rw [hLoop] at hScan
      exact ih hScan
    | some loop =>
      rw [hLoop] at hScan
      by_cases hFails : allocated done.length = false
      · cases (if_pos hFails).symm.trans hScan
        exact ⟨Nat.le_refl _, fun _ => rfl⟩
      · have hMore := (ih ((if_neg hFails).symm.trans hScan)).1
        rw [length_append, length_singleton] at hMore
        exact ⟨by omega, fun hSame => by omega⟩

/-- **The pass ends**, whichever rewritings find memory. The loops that it unrolls are different
headers of the function that it is given: it unrolls none that it has made. -/
theorem reduction_unroll_terminates (function : IRFunction) (allocated : Nat → Bool) (code : Code) :
    ∃ n ok last unrolled, (∀ fuel, n ≤ fuel →
      irReductionUnrollPass function allocated fuel code = some (ok, last, unrolled)) ∧
      unrolled <+~ loopHeaders .start code ∧
      ((∀ c ∈ code, c.unrolled = false) → ∀ c ∈ unrolled, c.unrolled = false) := by
  obtain ⟨n, ok, last, unrolled, hScan, hHeaders⟩ := scan_ends allocated code 0 []
  exact ⟨n, ok, last, unrolled, hScan, hHeaders, fun hCode c hc =>
    hCode c ((mem_of_loopHeaders (hHeaders.subset hc)).resolve_left nofun)⟩

end Mettle.IR.Unroll
