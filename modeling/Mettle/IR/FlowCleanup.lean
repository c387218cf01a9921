import Mathlib.Data.Option.Basic
import Mettle.IR.Behaviour
import Mettle.IR.Cfg

/-!
# Mettle — control-flow clean-ups

The passes of `ir/ir_optimize.c` that tidy jumps and labels. All of them rewrite
in place: an instruction becomes a nop or jumps somewhere else, and no position
changes.
-/

namespace Mettle.IR

open List

-- ---
-- Looking around
-- ---

/-- `ir_instruction_make_nop`. -/
def makeNop (instruction : IRInstruction) : IRInstruction :=
  { op := .nop, floatBits := instruction.floatBits }

/-- `ir_find_next_non_nop`. -/
def findNextNonNop (instructions : List IRInstruction) (start : Nat) : Option Nat :=
  ((instructions.drop start).findIdx? fun c => c.op != .nop).map (start + ·)

/-- `ir_find_next_non_nop_in_block`: a label ends the search. -/
def findNextNonNopInBlock (instructions : List IRInstruction) (start : Nat) : Option Nat :=
  (findNextNonNop instructions start).filter fun k =>
    !instructions[k]?.any fun c => c.op == .label

def IRInstruction.isLabel (instruction : IRInstruction) (name : String) : Bool :=
  instruction.op == .label && instruction.text == some name

/-- From `start` on there are nops, and then the label. -/
def labelFollows (instructions : List IRInstruction) (start : Nat) (name : String) : Bool :=
  (findNextNonNop instructions start).any fun k => instructions[k]?.any (·.isLabel name)

def IRInstruction.mayJump (instruction : IRInstruction) : Bool :=
  instruction.op == .jump || instruction.isBranch

-- ---
-- The passes that look at one place after the other
-- ---

def rewriteEach (rewriteAt : List IRInstruction → Nat → List IRInstruction)
    (instructions : List IRInstruction) : List IRInstruction :=
  (List.range instructions.length).foldl rewriteAt instructions

def removeFallthroughAt (kind : IRInstruction → Bool) (instructions : List IRInstruction)
    (i : Nat) : List IRInstruction :=
  if instructions[i]?.any fun c => kind c && c.text.any (labelFollows instructions (i + 1)) then
    instructions.modify i makeNop
  else instructions

/-- `ir_remove_redundant_jumps_pass`. -/
def removeRedundantJumps : List IRInstruction → List IRInstruction :=
  rewriteEach (removeFallthroughAt fun c => c.op == .jump)

/-- `ir_remove_redundant_fallthrough_branches_pass`. -/
def removeRedundantFallthroughBranches : List IRInstruction → List IRInstruction :=
  rewriteEach (removeFallthroughAt IRInstruction.isBranch)

def jumpBehindLabel (instructions : List IRInstruction) (target : String) : Option String := do
  let labelAt ← labelIndex instructions target
  let next ← findNextNonNop instructions (labelAt + 1)
  let c ← instructions[next]?
  if c.op = .jump then c.text else none

/-- Follow jumps to jumps, at most `depth` of them, and none to its own label. -/
def threadTarget (instructions : List IRInstruction) : Nat → String → String
  | 0, target => target
  | depth + 1, target =>
    match jumpBehindLabel instructions target with
    | none => target
    | some next => if next = target then target else threadTarget instructions depth next

def threadJumpTargetAt (instructions : List IRInstruction) (i : Nat) : List IRInstruction :=
  instructions.modify i fun c =>
    if c.mayJump then { c with text := c.text.map (threadTarget instructions 32) } else c

/-- `ir_thread_jump_targets_pass`. -/
def threadJumpTargets : List IRInstruction → List IRInstruction :=
  rewriteEach threadJumpTargetAt

def reachesWithNoBody (target : String) : List IRInstruction → Bool
  | [] => false
  | probe :: rest =>
    if probe.op = .nop then reachesWithNoBody target rest
    else if probe.op = .label then
      match probe.text with
      | none => false
      | some name => name == target || reachesWithNoBody target rest
    else false

def armsEmpty (instructions : List IRInstruction) (jumpIndex : Nat)
    (branchTarget jumpTarget : String) : Bool :=
  if branchTarget = jumpTarget then labelFollows instructions (jumpIndex + 1) jumpTarget
  else
    (findNextNonNop instructions (jumpIndex + 1)).any fun cursor =>
      instructions[cursor]?.any (·.isLabel branchTarget) &&
        reachesWithNoBody jumpTarget (instructions.drop (cursor + 1))

/-- The jump of the empty diamond that the branch at `i` opens. -/
def emptyDiamondJump (instructions : List IRInstruction) (i : Nat) : Option Nat := do
  let branch ← instructions[i]?
  guard branch.isBranch
  let branchTarget ← branch.text
  let jumpIndex ← findNextNonNopInBlock instructions (i + 1)
  let jump ← instructions[jumpIndex]?
  guard (jump.op = .jump)
  let jumpTarget ← jump.text
  guard (armsEmpty instructions jumpIndex branchTarget jumpTarget)
  return jumpIndex

def removeEmptyDiamondAt (instructions : List IRInstruction) (i : Nat) : List IRInstruction :=
  match emptyDiamondJump instructions i with
  | none => instructions
  | some jumpIndex => (instructions.modify i makeNop).modify jumpIndex makeNop

/-- `ir_remove_empty_conditional_diamonds_pass`. -/
def removeEmptyConditionalDiamonds : List IRInstruction → List IRInstruction :=
  rewriteEach removeEmptyDiamondAt

/-- `ir_instruction_references_label`. -/
def IRInstruction.referencesLabel (instruction : IRInstruction) (label : String) : Bool :=
  instruction.mayJump && instruction.text == some label

/-- `ir_label_is_referenced`. -/
def labelIsReferenced (instructions : List IRInstruction) (label : String) : Bool :=
  instructions.any (·.referencesLabel label)

def removeUnusedLabelAt (instructions : List IRInstruction) (i : Nat) : List IRInstruction :=
  if instructions[i]?.any fun c =>
      c.op == .label && c.text.any fun name => !labelIsReferenced instructions name then
    instructions.modify i makeNop
  else instructions

/-- `ir_remove_unused_labels_pass`. -/
def removeUnusedLabels : List IRInstruction → List IRInstruction :=
  rewriteEach removeUnusedLabelAt

-- ---
-- The passes that remove what is not reached
-- ---

def dropInstruction (instruction : IRInstruction) : IRInstruction :=
  if instruction.op = .nop then instruction else makeNop instruction

variable {marks : List Bool} {b : Nat}

theorem count_set_true_lt (h : marks[b]? = some false) :
    (marks.set b true).count false < marks.count false := by
  obtain ⟨hLt, hGet⟩ := List.getElem_of_getElem? h
  have hPos : 0 < marks.count false := List.count_pos_iff.mpr (hGet ▸ List.getElem_mem hLt)
  have hSet : (marks.set b true).count false = marks.count false - 1 := by
    rw [List.count_set hLt, hGet]
    rfl
  omega

/-- The worklist of `ir_eliminate_unreachable_blocks_pass`: a block that has no
mark yet gets one, and its successors are looked at later. -/
def markReachable (blocks : List IRBasicBlock) (marks : List Bool) : List Nat → List Bool
  | [] => marks
  | b :: worklist =>
    if marks[b]? = some false then
      markReachable blocks (marks.set b true) (worklist ++ (blocks[b]?.map (·.successors)).getD [])
    else markReachable blocks marks worklist
termination_by worklist => (marks.count false, worklist.length)
decreasing_by
  · exact Prod.Lex.left _ _ (count_set_true_lt ‹marks[b]? = some false›)
  · exact Prod.Lex.right _ (Nat.lt_succ_self worklist.length)

def reachableBlocks (blocks : List IRBasicBlock) : List Bool :=
  markReachable blocks (List.replicate blocks.length false) [0]

/-- `reachable_instructions[i]`. -/
def instructionReachable (blocks : List IRBasicBlock) (marks : List Bool) (i : Nat) : Bool :=
  (blocks.zip marks).any fun (block, marked) =>
    marked && decide (block.firstInstruction ≤ i) &&
      decide (i < block.firstInstruction + block.instructionCount)

/-- `ir_eliminate_unreachable_blocks_pass`. -/
def eliminateUnreachableBlocks (instructions : List IRInstruction) : List IRInstruction :=
  let blocks := rebuildCfg instructions
  let marks := reachableBlocks blocks
  instructions.mapIdx fun i c =>
    if instructionReachable blocks marks i then c else dropInstruction c

def dropUnreached : Bool → List IRInstruction → List IRInstruction
  | _, [] => []
  | reachable, c :: rest =>
    if c.op = .label then c :: dropUnreached true rest
    else if reachable then c :: dropUnreached (!c.isTerminator) rest
    else dropInstruction c :: dropUnreached false rest

/-- `ir_eliminate_unreachable_straightline_pass`. -/
def eliminateUnreachableStraightline : List IRInstruction → List IRInstruction :=
  dropUnreached true

-- ---
-- Sequences of passes
-- ---

inductive CleanupPass
  | redundantJumps
  | threadJumps
  | fallthroughBranches
  | emptyDiamonds
  | unreachableBlocks
  | unusedLabels
  | unreachableStraightline
  deriving DecidableEq

def CleanupPass.apply : CleanupPass → List IRInstruction → List IRInstruction
  | .redundantJumps => removeRedundantJumps
  | .threadJumps => threadJumpTargets
  | .fallthroughBranches => removeRedundantFallthroughBranches
  | .emptyDiamonds => removeEmptyConditionalDiamonds
  | .unreachableBlocks => eliminateUnreachableBlocks
  | .unusedLabels => removeUnusedLabels
  | .unreachableStraightline => eliminateUnreachableStraightline

def cleanUp (passes : List CleanupPass) (instructions : List IRInstruction) :
    List IRInstruction :=
  passes.foldl (fun instructions pass => pass.apply instructions) instructions

-- ---
-- Labels and targets
-- ---

def UniqueLabels (instructions : List IRInstruction) : Prop :=
  ∀ (p q : Nat) c d name, instructions[p]? = some c → instructions[q]? = some d →
    c.isLabel name = true → d.isLabel name = true → p = q

def AllTargeted (instructions : List IRInstruction) : Prop :=
  ∀ c ∈ instructions, c.mayJump = true →
    ∃ name index, c.text = some name ∧ labelIndex instructions name = some index

variable {V M : Type} {code instructions : List IRInstruction} {c : IRInstruction}
  {rewrite : IRInstruction → IRInstruction} {name : String}

section Labels

variable {old new : List IRInstruction} {i k p : Nat}

theorem isLabel_iff : c.isLabel name = true ↔ c.op = .label ∧ c.text = some name := by
  simp [IRInstruction.isLabel]

theorem mayJump_iff : c.mayJump = true ↔ c.op = .jump ∨ c.op = .branchZero ∨ c.op = .branchEq := by
  simp [IRInstruction.mayJump, IRInstruction.isBranch]

theorem isLabel_of_mayJump (h : c.mayJump = true) : c.isLabel name = false := by
  rw [mayJump_iff] at h
  rw [Bool.eq_false_iff]
  intro hLabel
  have hOp := (isLabel_iff.mp hLabel).1
  rw [hOp] at h
  simp at h

theorem isLabel_retarget (h : c.mayJump = true) {target : Option String} :
    ({ c with text := target } : IRInstruction).isLabel name = false :=
  isLabel_of_mayJump (by exact h)

theorem isLabel_makeNop (c : IRInstruction) : (makeNop c).isLabel name = false := rfl

theorem labelIndex_eq_some (hUnique : UniqueLabels code)
    (hAt : code[k]? = some c) (hLabel : c.isLabel name = true) :
    labelIndex code name = some k := by
  cases hIndex : labelIndex code name with
  | none =>
    have hNone := findIdx?_eq_none_iff.mp hIndex c (mem_of_getElem? hAt)
    rw [IRInstruction.isLabel] at hLabel
    rw [hLabel] at hNone
    cases hNone
  | some index =>
    obtain ⟨hLt, hIs, -⟩ := findIdx?_eq_some_iff_getElem.mp hIndex
    rw [hUnique k index _ _ name hAt (getElem?_eq_getElem hLt) hLabel hIs]

theorem UniqueLabels.mono (hUnique : UniqueLabels old)
    (hLabels : ∀ (p : Nat) c name, new[p]? = some c → c.isLabel name = true → ∃ c',
      old[p]? = some c' ∧ c'.isLabel name = true) : UniqueLabels new := by
  intro p q c d name hp hq hc hd
  obtain ⟨c', hc', hcLabel⟩ := hLabels p c name hp hc
  obtain ⟨d', hd', hdLabel⟩ := hLabels q d name hq hd
  exact hUnique p q c' d' name hc' hd' hcLabel hdLabel

theorem labelIndex_modify (h : ∀ c, code[i]? = some c → (rewrite c).isLabel name = c.isLabel name) :
    labelIndex (code.modify i rewrite) name = labelIndex code name := by
  have hVia : ∀ l : List IRInstruction, labelIndex l name =
      (l.map (·.isLabel name)).findIdx? id := by
    intro l
    rw [findIdx?_map]
    rfl
  rw [hVia, hVia]
  congr 1
  apply ext_getElem?
  intro p
  rw [getElem?_map, getElem?_map]
  by_cases hp : i = p
  · subst hp
    rw [getElem?_modify_eq]
    cases hAt : code[i]? with
    | none => rfl
    | some c => exact congrArg some (h c hAt)
  · rw [getElem?_modify_ne _ _ hp]

theorem uniqueLabels_modify (hUnique : UniqueLabels code)
    (h : ∀ c name, code[i]? = some c → (rewrite c).isLabel name = true →
      c.isLabel name = true) : UniqueLabels (code.modify i rewrite) := by
  refine hUnique.mono ?_
  intro p c name hAt hLabel
  by_cases hp : i = p
  · subst hp
    rw [getElem?_modify_eq] at hAt
    obtain ⟨c', hAt', rfl⟩ := Option.map_eq_some_iff.mp hAt
    exact ⟨c', hAt', h c' name hAt' hLabel⟩
  · rw [getElem?_modify_ne _ _ hp] at hAt
    exact ⟨c, hAt, hLabel⟩

theorem execute_eq_of_target (machine : Machine V M)
    (h : c.mayJump = true → ∀ name, c.text = some name → labelIndex new name = labelIndex old name)
    (state : IRState V M) :
    machine.execute new state c = machine.execute old state c := by
  have hJump : c.mayJump = true → jumpTo new state c.text = jumpTo old state c.text := by
    intro hMay
    cases hText : c.text with
    | none => rfl
    | some name => rw [jumpTo, jumpTo, h hMay name hText]
  unfold Machine.execute
  cases hOp : c.op
  case jump => exact hJump (mayJump_iff.mpr (by simp [hOp]))
  case branchZero =>
    rw [hJump (mayJump_iff.mpr (by simp [hOp]))]
  case branchEq =>
    rw [hJump (mayJump_iff.mpr (by simp [hOp]))]
  all_goals rfl

end Labels

-- ---
-- Silent ways
-- ---

/-- A nop or a label stands at `p`. -/
def SilentAt (instructions : List IRInstruction) (p : Nat) : Prop :=
  ∃ c, instructions[p]? = some c ∧ (c.op = .nop ∨ c.op = .label)

/-- From `start` nops and labels lead to the label `name` at `k`. -/
structure Leads (instructions : List IRInstruction) (start k : Nat) (name : String) : Prop where
  le : start ≤ k
  label : ∃ c, instructions[k]? = some c ∧ c.isLabel name = true
  silent : ∀ p, start ≤ p → p < k → SilentAt instructions p

section Silent

variable {new : List IRInstruction} {start k p q : Nat}

theorem silent_range (hLe : p ≤ q) (h : ∀ r, p ≤ r → r < q → SilentAt code r) :
    Silent code p q := by
  induction hLe using Nat.decreasingInduction with
  | self => exact .refl q
  | of_succ r hr ih =>
    obtain ⟨c, hAt, hOp⟩ := h r (le_refl r) hr
    exact .next hAt hOp (ih fun r' hr' => h r' (by omega))

theorem findNextNonNop_spec (h : findNextNonNop code start = some k) :
    start ≤ k ∧ (∃ c, code[k]? = some c ∧ c.op ≠ .nop) ∧
      ∀ p, start ≤ p → p < k → ∃ c, code[p]? = some c ∧ c.op = .nop := by
  rw [findNextNonNop, Option.map_eq_some_iff] at h
  obtain ⟨d, hFind, rfl⟩ := h
  obtain ⟨hLt, hIs, hBefore⟩ := findIdx?_eq_some_iff_getElem.mp hFind
  rw [length_drop] at hLt
  refine ⟨by omega, ?_, ?_⟩
  · rw [getElem_drop, bne_iff_ne] at hIs
    exact ⟨_, getElem?_eq_getElem (by omega), hIs⟩
  · intro p hLo hHi
    have hNop := hBefore (p - start) (by omega)
    rw [getElem_drop] at hNop
    simp only [show start + (p - start) = p by omega] at hNop
    exact ⟨_, getElem?_eq_getElem (by omega), by simpa using hNop⟩

theorem leads_of_findNext (hNext : findNextNonNop code start = some k)
    (hLabel : code[k]?.any (·.isLabel name) = true) : Leads code start k name := by
  obtain ⟨hLe, -, hNops⟩ := findNextNonNop_spec hNext
  refine ⟨hLe, ?_, ?_⟩
  · exact (Option.any_eq_true _ _).mp hLabel
  · intro p hLo hHi
    obtain ⟨c, hAt, hOp⟩ := hNops p hLo hHi
    exact ⟨c, hAt, Or.inl hOp⟩

theorem leads_of_labelFollows (h : labelFollows code start name = true) :
    ∃ k, Leads code start k name := by
  obtain ⟨k, hNext, hLabel⟩ := (Option.any_eq_true _ _).mp h
  exact ⟨k, leads_of_findNext hNext hLabel⟩

theorem leads_of_reaches (h : reachesWithNoBody name (code.drop start) = true) :
    ∃ k, Leads code start k name := by
  generalize hRest : code.drop start = rest at h
  induction rest generalizing start with
  | nil => cases h
  | cons probe rest ih =>
    have hAt : code[start]? = some probe := by
      rw [← head?_drop, hRest]
      rfl
    have hTail : code.drop (start + 1) = rest := by
      rw [← tail_drop, hRest]
      rfl
    -- one more silent instruction in front
    have hCons : (probe.op = .nop ∨ probe.op = .label) → reachesWithNoBody name rest = true →
        ∃ k, Leads code start k name := by
      intro hOp hReaches
      obtain ⟨k, hLeads⟩ := ih hTail hReaches
      refine ⟨k, Nat.le_of_succ_le hLeads.le, hLeads.label, ?_⟩
      intro p hLo hHi
      rcases Nat.lt_or_eq_of_le hLo with hLt | rfl
      · exact hLeads.silent p hLt hHi
      · exact ⟨probe, hAt, hOp⟩
    rw [reachesWithNoBody] at h
    split at h
    · rename_i hNop
      exact hCons (Or.inl hNop) h
    · split at h
      · rename_i hLabel
        split at h
        · cases h
        · rename_i found hText
          rcases Bool.or_eq_true_iff.mp h with hFound | hReaches
          · refine ⟨start, le_refl start, ⟨probe, hAt, isLabel_iff.mpr ⟨hLabel, ?_⟩⟩, ?_⟩
            · rw [hText, beq_iff_eq.mp hFound]
            · intro p hLo hHi
              omega
          · exact hCons (Or.inr hLabel) hReaches
      · cases h

theorem Leads.silent_way (h : Leads code start k name) : Silent code start k :=
  silent_range h.le h.silent

theorem Leads.mono (h : Leads code start k name)
    (hSame : ∀ p, start ≤ p → new[p]? = code[p]?) : Leads new start k name := by
  refine ⟨h.le, ?_, ?_⟩
  · rw [hSame k h.le]
    exact h.label
  · intro p hLo hHi
    rw [SilentAt, hSame p hLo]
    exact h.silent p hLo hHi

end Silent

-- ---
-- What a clean-up keeps
-- ---

/-- Rewriting `old` to `new` is a clean-up: it keeps the behaviour on every machine,
and that jumps have targets. -/
def Cleans (old new : List IRInstruction) : Prop :=
  UniqueLabels old → UniqueLabels new ∧ (AllTargeted old → AllTargeted new) ∧
      ∀ {V M : Type} (machine : Machine V M), SameBehaviour machine old new

theorem Cleans.refl (instructions : List IRInstruction) : Cleans instructions instructions :=
  fun hUnique => ⟨hUnique, id, fun machine => SameBehaviour.refl machine instructions⟩

variable {old new : List IRInstruction}

theorem Cleans.trans {middle : List IRInstruction} (hLeft : Cleans old middle)
    (hRight : Cleans middle new) : Cleans old new := by
  intro hUnique
  obtain ⟨hMiddle, hTargeted, hSame⟩ := hLeft hUnique
  obtain ⟨hNew, hTargeted', hSame'⟩ := hRight hMiddle
  refine ⟨hNew, fun h => hTargeted' (hTargeted h), ?_⟩
  intro V M machine
  exact (hSame machine).trans (hSame' machine)

theorem cleans_foldl {α : Type} {rewrite : List IRInstruction → α → List IRInstruction}
    (h : ∀ code a, Cleans code (rewrite code a)) (as : List α)
    (code : List IRInstruction) : Cleans code (as.foldl rewrite code) := by
  induction as generalizing code with
  | nil => exact Cleans.refl code
  | cons a as ih => exact (h code a).trans (ih (rewrite code a))

theorem cleans_rewriteEach {rewriteAt : List IRInstruction → Nat → List IRInstruction}
    (h : ∀ code i, Cleans code (rewriteAt code i))
    (code : List IRInstruction) : Cleans code (rewriteEach rewriteAt code) :=
  cleans_foldl h _ code

-- ---
-- Jumps and branches
-- ---

section Steps

variable {V M : Type} {machine : Machine V M} {state : IRState V M}

/-- What a jump or branch does does not depend on where it goes: it is stuck, or
falls through, or goes there. -/
theorem jump_cases (machine : Machine V M) (state : IRState V M) (hJump : c.mayJump = true) :
    (∀ code target, ∃ stuck, machine.execute code state { c with text := target } = .stuck stuck) ∨
    (c.isBranch = true ∧ ∀ code target,
      machine.execute code state { c with text := target } = .running state.next) ∨
    ∀ code target, machine.execute code state { c with text := target } =
      jumpTo code state target := by
  rcases mayJump_iff.mp hJump with hOp | hOp | hOp
  · right; right
    intro code target
    rw [Machine.execute, hOp]
  · cases hValue : machine.value state c.lhs with
    | none =>
      left
      intro code target
      refine ⟨state, ?_⟩
      simp only [Machine.execute, hOp, hValue]
    | some v =>
      by_cases hZero : machine.isZero v = true
      · right; right
        intro code target
        simp [Machine.execute, hOp, hValue, hZero]
      · right; left
        refine ⟨by simp [IRInstruction.isBranch, hOp], ?_⟩
        intro code target
        simp [Machine.execute, hOp, hValue, hZero]
  · cases hLeft : machine.value state c.lhs with
    | none =>
      left
      intro code target
      refine ⟨state, ?_⟩
      simp only [Machine.execute, hOp, hLeft]
    | some a =>
      cases hRight : machine.value state c.rhs with
      | none =>
        left
        intro code target
        refine ⟨state, ?_⟩
        simp only [Machine.execute, hOp, hLeft, hRight]
      | some b =>
        by_cases hEqual : machine.equal a b = true
        · right; right
          intro code target
          simp [Machine.execute, hOp, hLeft, hRight, hEqual]
        · right; left
          refine ⟨by simp [IRInstruction.isBranch, hOp], ?_⟩
          intro code target
          simp [Machine.execute, hOp, hLeft, hRight, hEqual]

theorem step_nop (hAt : code[state.pc]? = some (makeNop c)) :
    machine.step code state = .running { state with pc := state.pc + 1 } := by
  rw [step_at hAt]
  rfl

theorem step_eq_of_same (hSame : new[state.pc]? = old[state.pc]?) (hLabels : ∀ c name,
      old[state.pc]? = some c → c.mayJump = true → c.text = some name → labelIndex new name =
      labelIndex old name) :
    machine.step new state = machine.step old state := by
  rw [Machine.step, Machine.step, hSame]
  cases hAt : old[state.pc]? with
  | none => rfl
  | some c => exact execute_eq_of_target machine (fun hMay name => hLabels c name hAt hMay) state

end Steps

theorem AllTargeted.mono (hTargeted : AllTargeted old) (h : ∀ (p : Nat) c, new[p]? = some c →
      c.mayJump = true → old[p]? = some c ∧ ∀ name, c.text = some name → labelIndex new name =
      labelIndex old name) :
    AllTargeted new := by
  intro c hMem hMay
  obtain ⟨p, hAt⟩ := mem_iff_getElem?.mp hMem
  obtain ⟨hOld, hLabels⟩ := h p c hAt hMay
  obtain ⟨name, index, hText, hIndex⟩ := hTargeted c (mem_of_getElem? hOld) hMay
  exact ⟨name, index, hText, (hLabels name hText).trans hIndex⟩

variable {p : Nat}

theorem getElem?_modify_nop {i : Nat} (hAt : (code.modify i makeNop)[p]? = some c)
    (hMay : c.mayJump = true) :
    code[p]? = some c := by
  by_cases hp : i = p
  · subst hp
    rw [getElem?_modify_eq] at hAt
    obtain ⟨c', -, rfl⟩ := Option.map_eq_some_iff.mp hAt
    cases hMay
  · rwa [getElem?_modify_ne _ _ hp] at hAt

-- ---
-- Jumps and branches to the label behind them
-- ---

section OnePlace

variable {i : Nat}

theorem labelIndex_modify_jump (hAt : code[i]? = some c) (hMay : c.mayJump = true) (name : String) :
    labelIndex (code.modify i makeNop) name = labelIndex code name := by
  refine labelIndex_modify ?_
  intro c' hAt'
  obtain rfl := Option.some.inj (hAt.symm.trans hAt')
  rw [isLabel_of_mayJump hMay]
  rfl

theorem uniqueLabels_modify_nop (hUnique : UniqueLabels code) :
    UniqueLabels (code.modify i makeNop) :=
  uniqueLabels_modify hUnique fun _ _ _ h => by cases h

theorem cleans_removeFallthroughAt {kind : IRInstruction → Bool}
    (hKind : ∀ c, kind c = true → c.mayJump = true) (code : List IRInstruction) (i : Nat) :
    Cleans code (removeFallthroughAt kind code i) := by
  unfold removeFallthroughAt
  split
  case isFalse => exact Cleans.refl code
  case isTrue h =>
    obtain ⟨c, hAt, hc⟩ := (Option.any_eq_true _ _).mp h
    rw [Bool.and_eq_true, Option.any_eq_true] at hc
    obtain ⟨hc, name, hText, hFollows⟩ := hc
    have hMay := hKind c hc
    obtain ⟨k, hLeads⟩ := leads_of_labelFollows hFollows
    have hLabels := labelIndex_modify_jump hAt hMay
    intro hUnique
    have hIndex : labelIndex code name = some k := by
      obtain ⟨target, hTarget, hLabel⟩ := hLeads.label
      exact labelIndex_eq_some hUnique hTarget hLabel
    have hNewLeads : Leads (code.modify i makeNop) (i + 1) k name := by
      refine hLeads.mono ?_
      intro p hp
      exact getElem?_modify_ne _ _ (by omega)
    refine ⟨uniqueLabels_modify_nop hUnique, ?_, ?_⟩
    · intro hTargeted
      exact hTargeted.mono fun p d hd hMay' => ⟨getElem?_modify_nop hd hMay', fun n _ => hLabels n⟩
    · intro V M machine
      refine sameBehaviour_of_meets (fun _ => True) trivial ?_
      intro state _
      by_cases hpc : i = state.pc
      · subst hpc
        have hOldStep : machine.step code state =
            machine.execute code state c := step_at hAt
        have hNewStep : machine.step (code.modify state.pc makeNop) state =
            .running { state with pc := state.pc + 1 } := by
          refine step_nop (c := c) ?_
          rw [getElem?_modify_eq, hAt]
          rfl
        rcases jump_cases machine state hMay with hStuck | ⟨-, hFalls⟩ | hJumps
        · obtain ⟨stuck, hStuck⟩ := hStuck code c.text
          exact Or.inl (fails_of_step (hOldStep.trans hStuck))
        · refine meets_of_same ?_ fun _ _ => trivial
          rw [hNewStep, hOldStep]
          exact (hFalls code c.text).symm
        · refine meets_of_silent (r := k) ?_ hNewStep (.refl k) hNewLeads.silent_way trivial
          rw [hOldStep]
          refine (hJumps code c.text).trans ?_
          rw [hText, jumpTo, hIndex]
      · refine meets_of_same ?_ fun _ _ => trivial
        exact step_eq_of_same (getElem?_modify_ne _ _ hpc) fun _ n _ _ _ => hLabels n

theorem cleans_removeRedundantJumps (code : List IRInstruction) :
    Cleans code (removeRedundantJumps code) :=
  cleans_rewriteEach (cleans_removeFallthroughAt fun c hc => by
      rw [beq_iff_eq] at hc
      exact mayJump_iff.mpr (Or.inl hc)) code

theorem cleans_removeRedundantFallthroughBranches (code : List IRInstruction) :
    Cleans code (removeRedundantFallthroughBranches code) :=
  cleans_rewriteEach (cleans_removeFallthroughAt fun c hc => by
      rw [IRInstruction.mayJump, hc, Bool.or_true]) code

-- ---
-- Labels nobody goes to
-- ---

theorem labelIndex_modify_label (hAt : code[i]? = some c) {other : String}
    (hText : c.text = some name) (hNe : other ≠ name) :
    labelIndex (code.modify i makeNop) other = labelIndex code other := by
  refine labelIndex_modify ?_
  intro c' hAt'
  obtain rfl := Option.some.inj (hAt.symm.trans hAt')
  rw [isLabel_makeNop, eq_comm, Bool.eq_false_iff]
  intro hLabel
  have hOther := (isLabel_iff.mp hLabel).2
  rw [hText] at hOther
  exact hNe (Option.some.inj hOther).symm

theorem cleans_removeUnusedLabelAt (code : List IRInstruction) (i : Nat) :
    Cleans code (removeUnusedLabelAt code i) := by
  unfold removeUnusedLabelAt
  split
  case isFalse => exact Cleans.refl code
  case isTrue h =>
    obtain ⟨c, hAt, hc⟩ := (Option.any_eq_true _ _).mp h
    rw [Bool.and_eq_true, beq_iff_eq, Option.any_eq_true] at hc
    obtain ⟨hOp, name, hText, hUnused⟩ := hc
    -- every jump names another label
    have hLabels : ∀ (p : Nat) d other, code[p]? = some d → d.mayJump = true → d.text = some other →
        labelIndex (code.modify i makeNop) other = labelIndex code other := by
      intro p d other hd hMay hOther
      refine labelIndex_modify_label hAt hText ?_
      rintro rfl
      have hNot : labelIsReferenced code other = false := by simpa using hUnused
      have hRef : d.referencesLabel other = true := by
        rw [IRInstruction.referencesLabel, hMay, hOther]
        simp
      have := any_eq_false.mp hNot d (mem_of_getElem? hd)
      exact this hRef
    intro hUnique
    refine ⟨uniqueLabels_modify_nop hUnique, ?_, ?_⟩
    · intro hTargeted
      refine hTargeted.mono ?_
      intro p d hd hMay
      have hOld := getElem?_modify_nop hd hMay
      exact ⟨hOld, fun other hOther => hLabels p d other hOld hMay hOther⟩
    · intro V M machine
      refine sameBehaviour_of_meets (fun _ => True) trivial ?_
      intro state _
      refine meets_of_same ?_ fun _ _ => trivial
      by_cases hpc : i = state.pc
      · subst hpc
        rw [step_at hAt, Machine.execute, hOp]
        refine step_nop (c := c) ?_
        rw [getElem?_modify_eq, hAt]
        rfl
      · exact step_eq_of_same (getElem?_modify_ne _ _ hpc)
          fun d other hd => hLabels state.pc d other hd

theorem cleans_removeUnusedLabels (code : List IRInstruction) :
    Cleans code (removeUnusedLabels code) :=
  cleans_rewriteEach cleans_removeUnusedLabelAt code

end OnePlace

-- ---
-- Jumps to jumps
-- ---

variable {q : Nat}

section Threading

theorem jumpBehindLabel_spec {target next : String} {k : Nat}
    (hIndex : labelIndex code target = some k)
    (h : jumpBehindLabel code target = some next) :
    ∃ q c, Silent code k q ∧ code[q]? = some c ∧ c.op = .jump ∧ c.text = some next := by
  simp only [jumpBehindLabel, hIndex, Option.bind_eq_bind, Option.bind_some,
    Option.bind_eq_some_iff] at h
  obtain ⟨q, hNext, c, hAt, hText⟩ := h
  split at hText
  case isFalse => cases hText
  case isTrue hOp =>
    obtain ⟨label, hLabel, hLabelOp⟩ := getElem?_labelIndex hIndex
    obtain ⟨hLe, -, hNops⟩ := findNextNonNop_spec hNext
    refine ⟨q, c, .next hLabel (Or.inr hLabelOp) (silent_range hLe ?_), hAt, hOp, hText⟩
    intro p hLo hHi
    obtain ⟨nop, hNop, hNopOp⟩ := hNops p hLo hHi
    exact ⟨nop, hNop, Or.inl hNopOp⟩

theorem threadTarget_spec (depth : Nat) :
    ∀ {target : String} {k : Nat}, labelIndex code target = some k →
      (∃ k', labelIndex code (threadTarget code depth target) = some k' ∧ Silent code k k') ∨
      ∃ q c name, Silent code k q ∧ code[q]? = some c ∧ c.op = .jump ∧
        c.text = some name ∧ labelIndex code name = none := by
  induction depth with
  | zero =>
    intro target k hIndex
    exact Or.inl ⟨k, hIndex, .refl k⟩
  | succ depth ih =>
    intro target k hIndex
    rw [threadTarget]
    split
    · exact Or.inl ⟨k, hIndex, .refl k⟩
    · rename_i next hNext
      split
      · exact Or.inl ⟨k, hIndex, .refl k⟩
      · obtain ⟨q, c, hSilent, hAt, hOp, hText⟩ := jumpBehindLabel_spec hIndex hNext
        cases hNextIndex : labelIndex code next with
        | none => exact Or.inr ⟨q, c, next, hSilent, hAt, hOp, hText, hNextIndex⟩
        | some r =>
          have hToNext : Silent code k r :=
            hSilent.trans (.jump hAt hOp hText hNextIndex (.refl r))
          rcases ih hNextIndex with ⟨k', hIndex', hSilent'⟩ | ⟨q', c', name, hSilent', hFails⟩
          · exact Or.inl ⟨k', hIndex', hToNext.trans hSilent'⟩
          · exact Or.inr ⟨q', c', name, hToNext.trans hSilent', hFails⟩

theorem step_dangling {machine : Machine V M} {state : IRState V M}
    (hAt : code[q]? = some c) (hOp : c.op = .jump) (hText : c.text = some name)
    (hIndex : labelIndex code name = none) :
    ∃ stuck, machine.step code { state with pc := q } = .stuck stuck := by
  refine ⟨{ state with pc := q }, ?_⟩
  rw [step_at hAt, Machine.execute, hOp]
  rw [hText, jumpTo, hIndex]

theorem thread_meets {machine : Machine V M} {state : IRState V M} {text : Option String}
    {depth : Nat} (hLabels : ∀ name, labelIndex new name = labelIndex code name)
    (hOld : machine.step code state = jumpTo code state text)
    (hNew : machine.step new state = jumpTo new state (text.map (threadTarget code depth))) :
    Meets machine code new (fun _ => True) state := by
  cases text with
  | none => exact Or.inl (fails_of_step hOld)
  | some target =>
    rw [jumpTo] at hOld
    rw [Option.map_some, jumpTo, hLabels] at hNew
    cases hIndex : labelIndex code target with
    | none =>
      rw [hIndex] at hOld
      exact Or.inl (fails_of_step hOld)
    | some k =>
      rw [hIndex] at hOld
      rcases threadTarget_spec depth hIndex with ⟨k', hIndex', hSilent⟩ |
        ⟨q, c, name, hSilent, hAt, hOp, hText, hNone⟩
      · rw [hIndex'] at hNew
        exact meets_of_silent hOld hNew hSilent (.refl k') trivial
      · obtain ⟨stuck, hStuck⟩ := step_dangling hAt hOp hText hNone
        exact Or.inl (fails_of_silent hOld hSilent hStuck)

theorem cleans_threadJumpTargetAt (code : List IRInstruction) (i : Nat) :
    Cleans code (threadJumpTargetAt code i) := by
  have hLabels : ∀ name, labelIndex (threadJumpTargetAt code i) name =
      labelIndex code name := by
    intro name
    refine labelIndex_modify ?_
    intro c _
    split
    · rename_i hMay
      rw [isLabel_of_mayJump hMay]
      exact isLabel_retarget hMay
    · rfl
  intro hUnique
  refine ⟨?_, ?_, ?_⟩
  · refine uniqueLabels_modify hUnique ?_
    intro c name _ hLabel
    split at hLabel
    · rename_i hMay
      rw [isLabel_retarget hMay] at hLabel
      cases hLabel
    · exact hLabel
  · intro hTargeted c hMem hMay
    obtain ⟨p, hAt⟩ := mem_iff_getElem?.mp hMem
    by_cases hp : i = p
    · subst hp
      rw [threadJumpTargetAt, getElem?_modify_eq] at hAt
      obtain ⟨c', hAt', rfl⟩ := Option.map_eq_some_iff.mp hAt
      split at hMay
      · rename_i hMay'
        obtain ⟨name, index, hText, hIndex⟩ := hTargeted c' (mem_of_getElem? hAt') hMay'
        rw [if_pos hMay', hText]
        refine ⟨threadTarget code 32 name, ?_⟩
        rcases threadTarget_spec 32 hIndex with ⟨k', hIndex', -⟩ |
          ⟨q, d, other, -, hd, hOp, hOther, hNone⟩
        · exact ⟨k', rfl, (hLabels _).trans hIndex'⟩
        · obtain ⟨name', index', hText', hIndex'⟩ :=
            hTargeted d (mem_of_getElem? hd) (mayJump_iff.mpr (Or.inl hOp))
          obtain rfl := Option.some.inj (hOther.symm.trans hText')
          rw [hNone] at hIndex'
          cases hIndex'
      · rename_i hMay'
        exact absurd hMay hMay'
    · rw [threadJumpTargetAt, getElem?_modify_ne _ _ hp] at hAt
      obtain ⟨name, index, hText, hIndex⟩ := hTargeted c (mem_of_getElem? hAt) hMay
      exact ⟨name, index, hText, (hLabels name).trans hIndex⟩
  · intro V M machine
    refine sameBehaviour_of_meets (fun _ => True) trivial ?_
    intro state _
    by_cases hpc : i = state.pc
    · subst hpc
      cases hAt : code[state.pc]? with
      | none =>
        refine meets_of_same ?_ fun _ _ => trivial
        refine step_eq_of_same ?_ fun _ n _ _ _ => hLabels n
        rw [threadJumpTargetAt, getElem?_modify_eq, hAt]
        rfl
      | some c =>
        by_cases hMay : c.mayJump = true
        · have hNewAt : (threadJumpTargetAt code state.pc)[state.pc]? =
              some { c with text := c.text.map (threadTarget code 32) } := by
            rw [threadJumpTargetAt, getElem?_modify_eq, hAt]
            exact congrArg some (if_pos hMay)
          have hOldStep : machine.step code state = _ := step_at hAt
          have hNewStep : machine.step (threadJumpTargetAt code state.pc) state = _ :=
            step_at hNewAt
          rcases jump_cases machine state hMay with hStuck | ⟨-, hFalls⟩ | hJumps
          · obtain ⟨stuck, hStuck⟩ := hStuck code c.text
            exact Or.inl (fails_of_step (hOldStep.trans hStuck))
          · refine meets_of_same ?_ fun _ _ => trivial
            rw [hNewStep, hOldStep, hFalls]
            exact (hFalls code c.text).symm
          · rw [hJumps] at hNewStep
            replace hOldStep := hOldStep.trans (hJumps code c.text)
            exact thread_meets hLabels hOldStep hNewStep
        · refine meets_of_same ?_ fun _ _ => trivial
          refine step_eq_of_same ?_ fun _ n _ _ _ => hLabels n
          rw [threadJumpTargetAt, getElem?_modify_eq, hAt]
          exact congrArg some (if_neg hMay)
    · refine meets_of_same ?_ fun _ _ => trivial
      exact step_eq_of_same (getElem?_modify_ne _ _ hpc) fun _ n _ _ _ => hLabels n

theorem cleans_threadJumpTargets (code : List IRInstruction) :
    Cleans code (threadJumpTargets code) :=
  cleans_rewriteEach cleans_threadJumpTargetAt code

end Threading

-- ---
-- Empty diamonds
-- ---

/-- The branch at `i` and the jump at `j` close an empty diamond: only nops stand
between them, and from behind the jump nops and labels lead to the label of the
branch at `k`, and on to the label of the jump at `k'`. -/
structure Diamond (instructions : List IRInstruction) (i j k k' : Nat)
    (branch jump : IRInstruction) (branchTarget jumpTarget : String) : Prop where
  branchAt : instructions[i]? = some branch
  isBranch : branch.isBranch = true
  branchText : branch.text = some branchTarget
  lt : i < j
  nops : ∀ p, i < p → p < j → ∃ c, instructions[p]? = some c ∧ c.op = .nop
  jumpAt : instructions[j]? = some jump
  isJump : jump.op = .jump
  jumpText : jump.text = some jumpTarget
  toBranchTarget : Leads instructions (j + 1) k branchTarget
  toJumpTarget : Leads instructions k k' jumpTarget

section Diamonds

variable {i j k k' : Nat} {branch jump : IRInstruction} {branchTarget jumpTarget : String}

theorem guard_eq_some_iff {p : Prop} [Decidable p] {u : Unit} :
    (guard p : Option Unit) = some u ↔ p := by
  unfold guard
  split
  · rename_i hp
    exact iff_of_true rfl hp
  · rename_i hp
    exact iff_of_false (fun h => by cases h) hp

theorem armsEmpty_spec (h : armsEmpty code j branchTarget jumpTarget = true) :
    ∃ k k', Leads code (j + 1) k branchTarget ∧ Leads code k k' jumpTarget := by
  unfold armsEmpty at h
  split at h
  case isTrue hSame =>
    subst hSame
    obtain ⟨k, hLeads⟩ := leads_of_labelFollows h
    exact ⟨k, k, hLeads, le_refl k, hLeads.label, fun p hLo hHi => by omega⟩
  case isFalse =>
    obtain ⟨k, hNext, hk⟩ := (Option.any_eq_true _ _).mp h
    rw [Bool.and_eq_true] at hk
    obtain ⟨k', hLeads⟩ := leads_of_reaches hk.2
    have hFirst := leads_of_findNext hNext hk.1
    refine ⟨k, k', hFirst, Nat.le_of_succ_le hLeads.le, hLeads.label, ?_⟩
    intro p hLo hHi
    rcases Nat.lt_or_eq_of_le hLo with hLt | rfl
    · exact hLeads.silent p hLt hHi
    · obtain ⟨c, hAt, hLabel⟩ := hFirst.label
      exact ⟨c, hAt, Or.inr (isLabel_iff.mp hLabel).1⟩

theorem emptyDiamondJump_spec (h : emptyDiamondJump code i = some j) :
    ∃ k k' branch jump branchTarget jumpTarget,
      Diamond code i j k k' branch jump branchTarget jumpTarget := by
  simp only [emptyDiamondJump, Option.bind_eq_bind, Option.bind_eq_some_iff, guard_eq_some_iff] at h
  obtain ⟨branch, hBranchAt, _, hBranch, branchTarget, hBranchText, j', hInBlock, jump,
    hJumpAt, _, hJump, jumpTarget, hJumpText, _, hEmpty, hj⟩ := h
  cases hj
  rw [findNextNonNopInBlock, Option.filter_eq_some_iff] at hInBlock
  obtain ⟨hLe, -, hNops⟩ := findNextNonNop_spec hInBlock.1
  obtain ⟨k, k', hFirst, hSecond⟩ := armsEmpty_spec hEmpty
  exact ⟨k, k', branch, jump, branchTarget, jumpTarget, hBranchAt, hBranch, hBranchText, hLe,
    hNops, hJumpAt, hJump, hJumpText, hFirst, hSecond⟩

def withoutDiamond (instructions : List IRInstruction) (i j : Nat) : List IRInstruction :=
  (instructions.modify i makeNop).modify j makeNop

theorem getElem?_withoutDiamond_of_ne (hi : i ≠ p) (hj : j ≠ p) :
    (withoutDiamond code i j)[p]? = code[p]? := by
  rw [withoutDiamond, getElem?_modify_ne _ _ hj, getElem?_modify_ne _ _ hi]

variable (hDiamond : Diamond code i j k k' branch jump branchTarget jumpTarget)
include hDiamond

theorem Diamond.branch_mayJump : branch.mayJump = true := by
  rw [IRInstruction.mayJump, hDiamond.isBranch, Bool.or_true]

theorem Diamond.newBranchAt : (withoutDiamond code i j)[i]? = some (makeNop branch) := by
  have hNe : j ≠ i := Nat.ne_of_gt hDiamond.lt
  rw [withoutDiamond, getElem?_modify_ne _ _ hNe, getElem?_modify_eq, hDiamond.branchAt]
  rfl

theorem Diamond.newJumpAt : (withoutDiamond code i j)[j]? = some (makeNop jump) := by
  have hNe : i ≠ j := Nat.ne_of_lt hDiamond.lt
  rw [withoutDiamond, getElem?_modify_eq, getElem?_modify_ne _ _ hNe, hDiamond.jumpAt]
  rfl

theorem Diamond.labels (name : String) :
    labelIndex (withoutDiamond code i j) name = labelIndex code name := by
  have hNe : i ≠ j := Nat.ne_of_lt hDiamond.lt
  have hJumpAt : (code.modify i makeNop)[j]? = some jump := by
    rw [getElem?_modify_ne _ _ hNe]
    exact hDiamond.jumpAt
  rw [withoutDiamond, labelIndex_modify_jump hJumpAt (mayJump_iff.mpr (Or.inl hDiamond.isJump)),
    labelIndex_modify_jump hDiamond.branchAt hDiamond.branch_mayJump]

theorem Diamond.new_silent : Silent (withoutDiamond code i j) (i + 1) k' := by
  have hFirst := hDiamond.toBranchTarget
  have hSecond := hDiamond.toJumpTarget
  have hLt := hDiamond.lt
  have hk := hFirst.le
  have hk' := hSecond.le
  refine silent_range (by omega) ?_
  intro p hLo hHi
  by_cases hj : j = p
  · subst hj
    exact ⟨_, hDiamond.newJumpAt, Or.inl rfl⟩
  · rw [SilentAt, getElem?_withoutDiamond_of_ne (by omega) hj]
    rcases Nat.lt_or_ge p j with hBefore | hBehind
    · obtain ⟨c, hAt, hOp⟩ := hDiamond.nops p (by omega) hBefore
      exact ⟨c, hAt, Or.inl hOp⟩
    · rcases Nat.lt_or_ge p k with hFront | hBack
      · exact hFirst.silent p (by omega) hFront
      · exact hSecond.silent p hBack hHi

theorem Diamond.old_silent (hUnique : UniqueLabels code) : Silent code (i + 1) k' := by
  have hToJump : Silent code (i + 1) j := by
    refine silent_range hDiamond.lt ?_
    intro p hLo hHi
    obtain ⟨c, hAt, hOp⟩ := hDiamond.nops p hLo hHi
    exact ⟨c, hAt, Or.inl hOp⟩
  obtain ⟨c, hAt, hLabel⟩ := hDiamond.toJumpTarget.label
  exact hToJump.trans (.jump hDiamond.jumpAt hDiamond.isJump hDiamond.jumpText
    (labelIndex_eq_some hUnique hAt hLabel) (.refl k'))

theorem Diamond.outside (hp : ¬ (i < p ∧ p ≤ j)) (hNe : p ≠ i) (hEdge : Edge code p q)
    : ¬ (i < q ∧ q ≤ j) := by
  rintro ⟨hLo, hHi⟩
  obtain ⟨c, -, ⟨-, -, rfl⟩ | ⟨-, name, -, hIndex⟩⟩ := hEdge
  · omega
  · obtain ⟨label, hAt, hOp⟩ := getElem?_labelIndex hIndex
    rcases Nat.lt_or_eq_of_le hHi with hLt | rfl
    · obtain ⟨nop, hNopAt, hNopOp⟩ := hDiamond.nops q hLo hLt
      rw [Option.some.inj (hAt.symm.trans hNopAt), hNopOp] at hOp
      cases hOp
    · have hJump := hDiamond.isJump
      rw [Option.some.inj (hDiamond.jumpAt.symm.trans hAt), hOp] at hJump
      cases hJump

theorem Diamond.cleans : Cleans code (withoutDiamond code i j) := by
  have hLabels := hDiamond.labels
  intro hUnique
  refine ⟨uniqueLabels_modify_nop (uniqueLabels_modify_nop hUnique), ?_, ?_⟩
  · intro hTargeted
    refine hTargeted.mono ?_
    intro p c hAt hMay
    exact ⟨getElem?_modify_nop (getElem?_modify_nop hAt hMay) hMay, fun name _ => hLabels name⟩
  · intro V M machine
    have hLt := hDiamond.lt
    have hk := hDiamond.toBranchTarget.le
    have hk' := hDiamond.toJumpTarget.le
    refine sameBehaviour_of_meets (fun p => ¬ (i < p ∧ p ≤ j)) (by omega) ?_
    intro state hInv
    by_cases hpc : i = state.pc
    · subst hpc
      have hOldStep : machine.step code state = _ := step_at hDiamond.branchAt
      have hNewStep : machine.step (withoutDiamond code state.pc j) state =
          .running { state with pc := state.pc + 1 } := step_nop hDiamond.newBranchAt
      rcases jump_cases machine state hDiamond.branch_mayJump with hStuck | ⟨-, hFalls⟩ | hJumps
      · obtain ⟨stuck, hStuck⟩ := hStuck code branch.text
        exact Or.inl (fails_of_step (hOldStep.trans hStuck))
      · exact meets_of_silent (hOldStep.trans (hFalls code branch.text)) hNewStep
          (hDiamond.old_silent hUnique) hDiamond.new_silent (by omega)
      · obtain ⟨c, hAt, hLabel⟩ := hDiamond.toBranchTarget.label
        refine meets_of_silent (r := k) ?_ hNewStep hDiamond.toJumpTarget.silent_way
          hDiamond.new_silent (by omega)
        rw [hOldStep]
        refine (hJumps code branch.text).trans ?_
        rw [hDiamond.branchText, jumpTo, labelIndex_eq_some hUnique hAt hLabel]
    · refine meets_of_same ?_ ?_
      · exact step_eq_of_same (getElem?_withoutDiamond_of_ne hpc (by omega))
          fun _ name _ _ _ => hLabels name
      · intro next hStep
        exact hDiamond.outside hInv (Ne.symm hpc) (step_edge hStep)

omit hDiamond

theorem cleans_removeEmptyDiamondAt (code : List IRInstruction) (i : Nat) :
    Cleans code (removeEmptyDiamondAt code i) := by
  unfold removeEmptyDiamondAt
  split
  · exact Cleans.refl code
  · rename_i hJump
    obtain ⟨k, k', branch, jump, branchTarget, jumpTarget, hDiamond⟩ := emptyDiamondJump_spec hJump
    exact hDiamond.cleans

theorem cleans_removeEmptyConditionalDiamonds (code : List IRInstruction) :
    Cleans code (removeEmptyConditionalDiamonds code) :=
  cleans_rewriteEach cleans_removeEmptyDiamondAt code

end Diamonds

-- ---
-- What is not reached
-- ---

section Dead

variable {old new : List IRInstruction}

theorem mayJump_dropInstruction (c : IRInstruction) : (dropInstruction c).mayJump = false := by
  unfold dropInstruction
  split
  · rename_i hOp
    simp [IRInstruction.mayJump, IRInstruction.isBranch, hOp]
  · rfl

theorem isLabel_dropInstruction (c : IRInstruction) (name : String) :
    (dropInstruction c).isLabel name = false := by
  unfold dropInstruction
  split
  · rename_i hOp
    simp [IRInstruction.isLabel, hOp]
  · rfl

/-- A set of places that the entry is not in and that no edge leads into, and the
list without what stands there. -/
structure DropsDead (old new : List IRInstruction) (Dead : Nat → Prop) : Prop where
  entry : ¬ Dead 0
  edge : ∀ p q, ¬ Dead p → Edge old p q → ¬ Dead q
  kept : ∀ p, ¬ Dead p → new[p]? = old[p]?
  dropped : ∀ p, Dead p → new[p]? = old[p]?.map dropInstruction

variable {Dead : Nat → Prop} (h : DropsDead old new Dead)
include h

theorem DropsDead.alive (hAt : new[p]? = some c)
    (hc : c.mayJump = true ∨ ∃ name, c.isLabel name = true) : ¬ Dead p ∧ old[p]? = some c := by
  by_cases hDead : Dead p
  · rw [h.dropped p hDead] at hAt
    obtain ⟨c', -, rfl⟩ := Option.map_eq_some_iff.mp hAt
    rcases hc with hMay | ⟨name, hLabel⟩
    · rw [mayJump_dropInstruction] at hMay
      cases hMay
    · rw [isLabel_dropInstruction] at hLabel
      cases hLabel
  · exact ⟨hDead, (h.kept p hDead).symm.trans hAt⟩

theorem DropsDead.labelIndex (hAlive : ¬ Dead p) (hAt : old[p]? = some c) (hMay : c.mayJump = true)
    (hText : c.text = some name) :
    IR.labelIndex new name = IR.labelIndex old name := by
  cases hIndex : IR.labelIndex old name with
  | none =>
    refine List.findIdx?_eq_none_iff.mpr ?_
    intro d hMem
    by_contra hLabel
    rw [Bool.not_eq_false] at hLabel
    obtain ⟨q, hq⟩ := List.mem_iff_getElem?.mp hMem
    obtain ⟨-, hOld⟩ := h.alive hq (Or.inr ⟨name, hLabel⟩)
    rw [List.findIdx?_eq_none_iff.mp hIndex d (List.mem_of_getElem? hOld)] at hLabel
    cases hLabel
  | some k =>
    have hEdge : Edge old p k := ⟨c, hAt, Or.inr ⟨mayJump_iff.mp hMay, name, hText, hIndex⟩⟩
    have hKept := h.kept k (h.edge p k hAlive hEdge)
    obtain ⟨hLt, hLabel, hBefore⟩ := List.findIdx?_eq_some_iff_getElem.mp hIndex
    rw [List.getElem?_eq_getElem hLt] at hKept
    obtain ⟨hLtNew, hSame⟩ := List.getElem_of_getElem? hKept
    refine List.findIdx?_eq_some_iff_getElem.mpr ⟨hLtNew, hSame ▸ hLabel, ?_⟩
    intro q hq hLabelNew
    obtain ⟨-, hOld⟩ :=
      h.alive (List.getElem?_eq_getElem (hq.trans hLtNew)) (Or.inr ⟨name, hLabelNew⟩)
    obtain ⟨hLtOld, hSameOld⟩ := List.getElem_of_getElem? hOld
    exact hBefore q hq (hSameOld ▸ hLabelNew)

/-- **What is not reached can go.** -/
theorem DropsDead.cleans : Cleans old new := by
  intro hUnique
  refine ⟨?_, ?_, ?_⟩
  · refine hUnique.mono ?_
    intro p c name hAt hLabel
    exact ⟨c, (h.alive hAt (Or.inr ⟨name, hLabel⟩)).2, hLabel⟩
  · intro hTargeted
    refine hTargeted.mono ?_
    intro p c hAt hMay
    obtain ⟨hAlive, hOld⟩ := h.alive hAt (Or.inl hMay)
    exact ⟨hOld, fun name hText => h.labelIndex hAlive hOld hMay hText⟩
  · intro V M machine
    refine sameBehaviour_of_meets (fun p => ¬ Dead p) h.entry ?_
    intro state hAlive
    refine meets_of_same ?_ ?_
    · exact step_eq_of_same (h.kept state.pc hAlive)
        fun c name hAt hMay hText => h.labelIndex hAlive hAt hMay hText
    · intro next hStep
      exact h.edge state.pc next.pc hAlive (step_edge hStep)

end Dead

-- ---
-- Behind jumps and returns
-- ---

section Straightline

/-- The flag `reachable` behind an instruction. -/
def reachableBehind (reachable : Bool) (c : IRInstruction) : Bool :=
  if c.op = .label then true else reachable && !c.isTerminator

/-- The place is not reached, if the first one is reached as the flag says. -/
def Unreached : Bool → List IRInstruction → Nat → Prop
  | _, [], _ => False
  | reachable, c :: _, 0 => c.op ≠ .label ∧ reachable = false
  | reachable, c :: rest, p + 1 => Unreached (reachableBehind reachable c) rest p

theorem dropUnreached_cons (reachable : Bool) (c : IRInstruction) (rest : List IRInstruction) :
    ∃ c', dropUnreached reachable (c :: rest) =
        c' :: dropUnreached (reachableBehind reachable c) rest ∧
      (Unreached reachable (c :: rest) 0 → c' = dropInstruction c) ∧
      (¬ Unreached reachable (c :: rest) 0 → c' = c) := by
  rw [dropUnreached]
  unfold reachableBehind Unreached
  split
  · rename_i hLabel
    exact ⟨c, rfl, fun h => absurd hLabel h.1, fun _ => rfl⟩
  · rename_i hLabel
    split
    · rename_i hReachable
      refine ⟨c, ?_, fun h => ?_, fun _ => rfl⟩
      · rw [hReachable, Bool.true_and]
      · rw [hReachable] at h
        cases h.2
    · rename_i hNot
      rw [Bool.not_eq_true] at hNot
      refine ⟨dropInstruction c, ?_, fun _ => rfl, fun h => absurd ⟨hLabel, hNot⟩ h⟩
      rw [hNot, Bool.false_and]

theorem getElem?_dropUnreached (code : List IRInstruction) : ∀ (reachable : Bool) (p : Nat),
      (¬ Unreached reachable code p → (dropUnreached reachable code)[p]? = code[p]?) ∧
      (Unreached reachable code p →
        (dropUnreached reachable code)[p]? = code[p]?.map dropInstruction) := by
  induction code with
  | nil =>
    intro reachable p
    exact ⟨fun _ => rfl, fun h => h.elim⟩
  | cons c rest ih =>
    intro reachable p
    obtain ⟨c', hEq, hDropped, hKept⟩ := dropUnreached_cons reachable c rest
    rw [hEq]
    cases p with
    | zero => exact ⟨fun h => congrArg some (hKept h), fun h => congrArg some (hDropped h)⟩
    | succ p => exact ih _ p

theorem Unreached.not_label : ∀ {reachable : Bool} {p : Nat}, Unreached reachable code p →
      ∀ c, code[p]? = some c → c.op ≠ .label := by
  induction code with
  | nil =>
    intro reachable p h
    exact h.elim
  | cons c rest ih =>
    intro reachable p h d hd
    cases p with
    | zero =>
      cases hd
      exact h.1
    | succ p => exact ih h d hd

theorem Unreached.behind : ∀ {reachable : Bool} {p : Nat}, Unreached reachable code (p + 1) →
      ¬ Unreached reachable code p →
      ∀ c, code[p]? = some c → c.isTerminator = true := by
  induction code with
  | nil =>
    intro reachable p h
    exact h.elim
  | cons c rest ih =>
    intro reachable p h hNot d hd
    cases p with
    | zero =>
      cases hd
      cases rest with
      | nil => exact h.elim
      | cons c' rest =>
        have hFlag : reachableBehind reachable c = false := h.2
        unfold reachableBehind at hFlag
        split at hFlag
        · cases hFlag
        · rename_i hLabel
          cases reachable with
          | false => exact absurd ⟨hLabel, rfl⟩ hNot
          | true => simpa using hFlag
    | succ p => exact ih h hNot d hd

theorem cleans_eliminateUnreachableStraightline (code : List IRInstruction) :
    Cleans code (eliminateUnreachableStraightline code) := by
  have hAt := getElem?_dropUnreached code true
  suffices hDrops : DropsDead code (eliminateUnreachableStraightline code)
      (Unreached true code) from hDrops.cleans
  refine ⟨?_, ?_, fun p => (hAt p).1, fun p => (hAt p).2⟩
  · cases code with
    | nil => exact id
    | cons c rest => exact fun h => by cases h.2
  · rintro p q hAlive ⟨c, hc, hCases⟩ hDead
    rcases hCases with ⟨hJump, hReturn, rfl⟩ | ⟨-, name, -, hIndex⟩
    · have hTerminator := hDead.behind hAlive c hc
      simp only [IRInstruction.isTerminator, Bool.or_eq_true, beq_iff_eq] at hTerminator
      exact hTerminator.elim hJump hReturn
    · obtain ⟨label, hLabel, hOp⟩ := getElem?_labelIndex hIndex
      exact hDead.not_label label hLabel hOp

end Straightline

-- ---
-- Blocks that are not reached
-- ---

variable {blocks : List IRBasicBlock}

section Blocks

def MarksClosed (blocks : List IRBasicBlock) (marks : List Bool) (worklist : List Nat) : Prop :=
  ∀ (b : Nat) block, marks[b]? = some true → blocks[b]? = some block →
    ∀ t ∈ block.successors, t < marks.length → marks[t]? = some true ∨ t ∈ worklist

theorem markReachable_spec {worklist : List Nat} (hClosed : MarksClosed blocks marks worklist) :
    (markReachable blocks marks worklist).length = marks.length ∧
      (∀ b : Nat, marks[b]? = some true → (markReachable blocks marks worklist)[b]? = some true) ∧
      (∀ b ∈ worklist, b < marks.length → (markReachable blocks marks worklist)[b]? = some true) ∧
      MarksClosed blocks (markReachable blocks marks worklist) [] := by
  fun_induction markReachable blocks marks worklist with
  | case1 marks =>
    exact ⟨rfl, fun _ h => h, fun b hb => absurd hb not_mem_nil, hClosed⟩
  | case2 marks b worklist hMark ih =>
    have hLt := (List.getElem_of_getElem? hMark).1
    -- the block gets its mark, and what it leads to waits
    have hSet : ∀ c : Nat, marks[c]? = some true → (marks.set b true)[c]? = some true := by
      intro c hc
      rw [getElem?_set]
      split
      · simp
      · exact hc
    have hSelf : (marks.set b true)[b]? = some true := by
      rw [getElem?_set_self hLt]
    have hClosed' : MarksClosed blocks (marks.set b true)
        (worklist ++ (blocks[b]?.map (·.successors)).getD []) := by
      intro c block hc hBlock t ht htLt
      rw [length_set] at htLt
      by_cases hcb : b = c
      · subst hcb
        right
        rw [hBlock]
        exact mem_append_right _ ht
      · rw [getElem?_set_ne hcb] at hc
        rcases hClosed c block hc hBlock t ht htLt with hMarked | hWaits
        · exact Or.inl (hSet t hMarked)
        · rcases mem_cons.mp hWaits with rfl | hRest
          · exact Or.inl hSelf
          · exact Or.inr (mem_append_left _ hRest)
    obtain ⟨hLength, hKept, hWaiting, hFinal⟩ := ih hClosed'
    rw [length_set] at hLength hWaiting
    refine ⟨hLength, fun c hc => hKept c (hSet c hc), ?_, hFinal⟩
    intro c hc hcLt
    rcases mem_cons.mp hc with rfl | hRest
    · exact hKept c hSelf
    · exact hWaiting c (mem_append_left _ hRest) hcLt
  | case3 marks b worklist hMark ih =>
    have hMarked : b < marks.length → marks[b]? = some true := by
      intro hLt
      rw [getElem?_eq_getElem hLt] at hMark ⊢
      cases hb : marks[b] with
      | true => rfl
      | false => exact absurd (by rw [hb]) hMark
    have hClosed' : MarksClosed blocks marks worklist := by
      intro c block hc hBlock t ht htLt
      rcases hClosed c block hc hBlock t ht htLt with hDone | hWaits
      · exact Or.inl hDone
      · rcases mem_cons.mp hWaits with rfl | hRest
        · exact Or.inl (hMarked htLt)
        · exact Or.inr hRest
    obtain ⟨hLength, hKept, hWaiting, hFinal⟩ := ih hClosed'
    refine ⟨hLength, hKept, ?_, hFinal⟩
    intro c hc hcLt
    rcases mem_cons.mp hc with rfl | hRest
    · exact hKept c (hMarked hcLt)
    · exact hWaiting c hRest hcLt

theorem reachableBlocks_spec (blocks : List IRBasicBlock) :
    (reachableBlocks blocks).length = blocks.length ∧
      (blocks ≠ [] → (reachableBlocks blocks)[0]? = some true) ∧
      ∀ (b t : Nat) block, (reachableBlocks blocks)[b]? = some true → blocks[b]? = some block →
        t ∈ block.successors → t < blocks.length → (reachableBlocks blocks)[t]? = some true := by
  have hStart : MarksClosed blocks (replicate blocks.length false) [0] := by
    intro b block hMark
    rw [getElem?_replicate] at hMark
    split at hMark <;> cases hMark
  obtain ⟨hLength, -, hWaiting, hFinal⟩ := markReachable_spec hStart
  rw [length_replicate] at hLength hWaiting
  refine ⟨hLength, ?_, ?_⟩
  · intro hNonempty
    exact hWaiting 0 mem_cons_self (length_pos_iff.mpr hNonempty)
  · intro b t block hMark hBlock ht htLt
    rcases hFinal b block hMark hBlock t ht (by rw [hLength]; exact htLt) with hDone | hWaits
    · exact hDone
    · cases hWaits

theorem instructionReachable_iff : instructionReachable blocks marks p = true ↔
      ∃ (b : Nat) (block : IRBasicBlock), blocks[b]? = some block ∧ marks[b]? = some true ∧
        block.firstInstruction ≤ p ∧ p < block.firstInstruction + block.instructionCount := by
  simp only [instructionReachable, any_eq_true, Bool.and_eq_true, decide_eq_true_eq]
  constructor
  · rintro ⟨⟨block, marked⟩, hMem, ⟨rfl, hLo⟩, hHi⟩
    obtain ⟨b, hb⟩ := mem_iff_getElem?.mp hMem
    obtain ⟨hBlock, hMark⟩ := getElem?_zip_eq_some.mp hb
    exact ⟨b, block, hBlock, hMark, hLo, hHi⟩
  · rintro ⟨b, block, hBlock, hMark, hLo, hHi⟩
    refine ⟨(block, true), ?_, ⟨rfl, hLo⟩, hHi⟩
    exact mem_of_getElem? (getElem?_zip_eq_some.mpr ⟨hBlock, hMark⟩)

theorem rebuildCfg_of_start {start : Nat} (h : (blockStarts code)[b]? = some start) :
    ∃ node, (rebuildCfg code)[b]? = some node ∧ node.firstInstruction = start ∧
      start + node.instructionCount = blockEnd code b := by
  have hGraph : GraphOf (makeBlocks code) _ (rebuildCfg code) := graphOf_rebuildCfg
  have hLt : b < (rebuildCfg code).length := by
    rw [hGraph.length, length_makeBlocks]
    exact (List.getElem_of_getElem? h).1
  refine ⟨_, getElem?_eq_getElem hLt, ?_⟩
  obtain ⟨block, hBlock, hFirst, hCount⟩ := rebuildCfg_node (getElem?_eq_getElem hLt)
  obtain ⟨start', hStart, rfl⟩ := getElem?_makeBlocks.mp hBlock
  obtain rfl := Option.some.inj (h.symm.trans hStart)
  have := blockStart_lt_end h
  refine ⟨hFirst, ?_⟩
  rw [hCount]
  dsimp only
  omega

theorem blockEdge_cases {node : IRBasicBlock} (hNode : (rebuildCfg code)[b]? = some node)
    (hLo : node.firstInstruction ≤ p) (hHi : p < node.firstInstruction + node.instructionCount)
    (hEdge : Edge code p q) (hq : q < code.length) :
    (q = p + 1 ∧ q < node.firstInstruction + node.instructionCount) ∨
      (p = node.lastInstruction ∧ q ∈ blockStarts code) := by
  obtain ⟨block, hBlock, hFirst, hCount⟩ := rebuildCfg_node hNode
  obtain ⟨start, hStart, rfl⟩ := getElem?_makeBlocks.mp hBlock
  dsimp only at hFirst hCount
  rw [hFirst] at hLo hHi ⊢
  rcases Nat.lt_or_ge (p + 1) (blockEnd code b) with hInside | hLast
  · -- inside the block
    left
    obtain ⟨c, hAt, hCases⟩ := hEdge
    obtain ⟨hTerminator, hBranch⟩ := plain_inside hStart hLo hInside hAt
    simp only [IRInstruction.isTerminator, IRInstruction.isBranch, Bool.or_eq_false_iff,
      beq_eq_false_iff_ne] at hTerminator hBranch
    rcases hCases with ⟨-, -, rfl⟩ | ⟨hOp, -⟩
    · exact ⟨rfl, by omega⟩
    · rcases hOp with hOp | hOp | hOp
      · exact absurd hOp hTerminator.1
      · exact absurd hOp hBranch.1
      · exact absurd hOp hBranch.2
  · right
    refine ⟨?_, ?_⟩
    · rw [IRBasicBlock.lastInstruction, hFirst, hCount]
      omega
    · obtain ⟨c, hAt, ⟨-, -, rfl⟩ | ⟨-, name, -, hIndex⟩⟩ := hEdge
      · -- the next block starts behind this one
        have hEnd : p + 1 = blockEnd code b := by omega
        rw [hEnd] at hq ⊢
        cases hNext : (blockStarts code)[b + 1]? with
        | none =>
          rw [blockEnd, getD_eq_getElem?_getD, hNext] at hq
          exact absurd hq (Nat.lt_irrefl _)
        | some r =>
          rw [blockEnd, getD_eq_getElem?_getD, hNext]
          exact mem_of_getElem? hNext
      · obtain ⟨label, hLabel, hOp⟩ := getElem?_labelIndex hIndex
        exact mem_blockStarts_label hLabel hOp

def InUnreachedBlock (instructions : List IRInstruction) (p : Nat) : Prop :=
  p < instructions.length ∧ instructionReachable (rebuildCfg instructions)
    (reachableBlocks (rebuildCfg instructions)) p = false

theorem reachable_of_not_inUnreachedBlock (h : ¬ InUnreachedBlock code p)
    (hp : p < code.length) : instructionReachable (rebuildCfg code)
      (reachableBlocks (rebuildCfg code)) p = true := by
  by_contra hNo
  exact h ⟨hp, by simpa using hNo⟩

theorem cleans_eliminateUnreachableBlocks (code : List IRInstruction) :
    Cleans code (eliminateUnreachableBlocks code) := by
  have hCfg := rebuildCfg_edges code
  obtain ⟨-, hEntry, hSuccessors⟩ := reachableBlocks_spec (rebuildCfg code)
  have hAt : ∀ p : Nat, (eliminateUnreachableBlocks code)[p]? = code[p]?.map fun c =>
        if instructionReachable (rebuildCfg code)
          (reachableBlocks (rebuildCfg code)) p then c else dropInstruction c := by
    intro p
    rw [eliminateUnreachableBlocks, getElem?_mapIdx]
  suffices hDrops : DropsDead code (eliminateUnreachableBlocks code)
      (InUnreachedBlock code) from hDrops.cleans
  refine ⟨?_, ?_, ?_, ?_⟩
  · rintro ⟨hPos, hNot⟩
    have hNonempty : code ≠ [] := length_pos_iff.mp hPos
    have hBlocks := hCfg.partition.covers hNonempty
    obtain ⟨node, hNode, hFirst, hCount⟩ := rebuildCfg_of_start (blockStarts_zero hNonempty)
    have hNodePos := hCfg.partition.nonempty node (mem_of_getElem? hNode)
    rw [instructionReachable_iff.mpr ⟨0, node, hNode, hEntry hBlocks, by omega, by omega⟩] at hNot
    cases hNot
  · rintro p q hAlive hEdge ⟨hq, hNot⟩
    have hp : p < code.length := by
      obtain ⟨c, hc, -⟩ := hEdge
      exact (List.getElem_of_getElem? hc).1
    obtain ⟨b, node, hNode, hMark, hLo, hHi⟩ :=
      instructionReachable_iff.mp (reachable_of_not_inUnreachedBlock hAlive hp)
    have hqReached : instructionReachable (rebuildCfg code)
        (reachableBlocks (rebuildCfg code)) q = true := by
      rcases blockEdge_cases hNode hLo hHi hEdge hq with ⟨rfl, hInside⟩ | ⟨rfl, hStart⟩
      · exact instructionReachable_iff.mpr ⟨b, node, hNode, hMark, by omega, hInside⟩
      · obtain ⟨t, ht⟩ := mem_iff_getElem?.mp hStart
        obtain ⟨target, hTarget, hFirst, -⟩ := rebuildCfg_of_start ht
        have hPos := hCfg.partition.nonempty target (mem_of_getElem? hTarget)
        have hSuccessor : t ∈ node.successors := by
          rw [hCfg.successor b t node target hNode hTarget, hFirst]
          exact hEdge
        exact instructionReachable_iff.mpr ⟨t, target, hTarget,
          hSuccessors b t node hMark hNode hSuccessor (hCfg.inRange b node hNode t hSuccessor),
          by omega, by omega⟩
    rw [hqReached] at hNot
    cases hNot
  · intro p hAlive
    rw [hAt]
    cases hc : code[p]? with
    | none => rfl
    | some c =>
      have hp := (List.getElem_of_getElem? hc).1
      rw [Option.map_some, if_pos (reachable_of_not_inUnreachedBlock hAlive hp)]
  · rintro p ⟨-, hNot⟩
    rw [hAt, hNot]
    rfl

end Blocks

-- ---
-- Any sequence of passes
-- ---

theorem CleanupPass.cleans (code : List IRInstruction) (pass : CleanupPass) :
    Cleans code (pass.apply code) := by
  cases pass with
  | redundantJumps => exact cleans_removeRedundantJumps code
  | threadJumps => exact cleans_threadJumpTargets code
  | fallthroughBranches => exact cleans_removeRedundantFallthroughBranches code
  | emptyDiamonds => exact cleans_removeEmptyConditionalDiamonds code
  | unreachableBlocks => exact cleans_eliminateUnreachableBlocks code
  | unusedLabels => exact cleans_removeUnusedLabels code
  | unreachableStraightline => exact cleans_eliminateUnreachableStraightline code

/-- **Clean-ups keep the behaviour.** Whatever a function with unique labels does,
it does after any sequence of the passes, and unless it gets stuck it does nothing
else then; and if all its jumps had targets, they all still have one. -/
theorem cleanup_sameBehaviour {V M : Type} (machine : Machine V M) (passes : List CleanupPass)
    (instructions : List IRInstruction) (hUnique : UniqueLabels instructions) :
    SameBehaviour machine instructions (cleanUp passes instructions) ∧
      (AllTargeted instructions → AllTargeted (cleanUp passes instructions)) := by
  have hCleans : Cleans instructions (cleanUp passes instructions) :=
    cleans_foldl CleanupPass.cleans passes instructions
  obtain ⟨-, hTargeted, hSame⟩ := hCleans hUnique
  exact ⟨hSame machine, hTargeted⟩

theorem uniqueLabels_of_pairwise
    (h : instructions.Pairwise fun c d => c.op = .label → d.op = .label → c.text ≠ d.text) :
    UniqueLabels instructions := by
  intro p q c d name hp hq hc hd
  obtain ⟨hpLt, rfl⟩ := List.getElem_of_getElem? hp
  obtain ⟨hqLt, rfl⟩ := List.getElem_of_getElem? hq
  obtain ⟨hcOp, hcText⟩ := isLabel_iff.mp hc
  obtain ⟨hdOp, hdText⟩ := isLabel_iff.mp hd
  rcases Nat.lt_trichotomy p q with hLt | rfl | hGt
  · exact absurd (hcText.trans hdText.symm)
      (List.pairwise_iff_getElem.mp h p q hpLt hqLt hLt hcOp hdOp)
  · rfl
  · exact absurd (hdText.trans hcText.symm)
      (List.pairwise_iff_getElem.mp h q p hqLt hpLt hGt hdOp hcOp)

def roundabout : List IRInstruction :=
  [{ op := .jump, text := some "A" }, { op := .label, text := some "B" },
   { op := .return_, lhs := .int 1 }, { op := .label, text := some "A" },
   { op := .jump, text := some "B" }]

theorem cleanup_sameBehaviour_roundabout :
    cleanUp [.threadJumps, .redundantJumps, .unusedLabels, .unreachableStraightline,
        .unusedLabels] roundabout =
      [{ op := .nop }, { op := .nop }, { op := .return_, lhs := .int 1 }, { op := .nop },
       { op := .nop }] ∧
    SameBehaviour (wordMachine fun _ => false) roundabout
      (cleanUp [.threadJumps, .redundantJumps, .unusedLabels, .unreachableStraightline,
        .unusedLabels] roundabout) := by
  refine ⟨by decide, (cleanup_sameBehaviour _ _ _ ?_).1⟩
  exact uniqueLabels_of_pairwise (by decide)

end Mettle.IR
