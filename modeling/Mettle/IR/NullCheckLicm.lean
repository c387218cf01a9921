import Mettle.IR.Moved
import Mettle.IR.PositiveLoop
import Mettle.Lib.Loops

/-!
# Mettle — null checks taken out of loops

The pass of `ir/ir_optimize.c` that moves the null check of a pointer from the body of a
`while` loop to the front of the loop, where it is made once.

`EnteredSafely` says that the pointer was not null when the loop was last entered from above,
where the check now is. `CheckHoists` is what the pass would have to know of a check: that the
pointer is then not null either when a run comes to the place of the check in the body.
-/

namespace Mettle.IR

open Mettle.Lib List Option

-- ---
-- The pass
-- ---

def startsAs (start : String) (text : Option String) : Bool :=
  text.any fun t => start.toList.isPrefixOf t.toList

def isCrashTrap (callee : Option String) : Bool :=
  callee == some "mettle_crash_trap" || callee == some "mettle_crash_trap_ex"

/-- `ir_symbol_address_taken`. -/
def symbolAddressTaken (instructions : List IRInstruction) (symbol : String) : Bool :=
  instructions.any fun c => c.op == .addressOf && c.lhs == .symbol symbol

/-- A null check: `branch_zero symbol → trap; jump ok; trap: call mettle_crash_trap; ok:`, with
nops in between. -/
structure NullCheck where
  symbol : String
  trap : String
  ok : String
  first : Nat
  jumpAt : Nat
  trapAt : Nat
  callAt : Nat
  last : Nat
  deriving DecidableEq

def NullCheck.span (check : NullCheck) : Nat := check.last - check.first + 1

def checkedSymbol (branch : IRInstruction) : Option (String × String) :=
  match branch.lhs, branch.text with
  | .symbol symbol, some trap =>
    if branch.op = .branchZero ∧ startsAs "ir_trap_null_" branch.text = true then
      some (symbol, trap)
    else none
  | _, _ => none

def nextIs (instructions : List IRInstruction) (start : Nat) (kind : IRInstruction → Bool) :
    Option Nat :=
  (findNextNonNop instructions start).filter fun k => instructions[k]?.any kind

/-- `ir_match_null_trap_diamond`. -/
def matchNullTrapDiamond (instructions : List IRInstruction) (start : Nat) :
    Option NullCheck := do
  let branch ← instructions[start]?
  let (symbol, trap) ← checkedSymbol branch
  let jumpAt ← nextIs instructions (start + 1) fun c =>
    c.op == .jump && startsAs "ir_nonnull_" c.text
  let jump ← instructions[jumpAt]?
  let ok ← jump.text
  let trapAt ← nextIs instructions (jumpAt + 1) fun c => c.isLabel trap
  let callAt ← nextIs instructions (trapAt + 1) fun c => c.op == .call && isCrashTrap c.text
  let last ← nextIs instructions (callAt + 1) fun c => c.isLabel ok
  some { symbol, trap, ok, first := start, jumpAt, trapAt, callAt, last }

def mayWriteChecked (addressTaken : Bool) (symbol : String) (c : IRInstruction) : Bool :=
  (irInstructionWritesSymbol c && c.dest == .symbol symbol) ||
    (addressTaken && (c.op == .store || c.op == .call || c.op == .callIndirect))

def checkIsInvariant (instructions : List IRInstruction) (header backedge : Nat)
    (check : NullCheck) : Bool :=
  (List.range backedge).all fun k =>
    decide (k ≤ header) || (decide (check.first ≤ k) && decide (k ≤ check.last)) ||
      !instructions[k]?.any
        (mayWriteChecked (symbolAddressTaken instructions check.symbol) check.symbol)

/-- The first jump back to a `while` loop. -/
def whileBackedge (instructions : List IRInstruction) (header : Nat) : Option Nat := do
  let c ← instructions[header]?
  let name ← c.labelName
  if startsAs "ir_while_" (some name) then findJumpTo instructions name (header + 1) else none

/-- The check that the pass takes out of the loop at `header`. -/
def hoistAt (instructions : List IRInstruction) (header : Nat) : Option NullCheck := do
  let backedge ← whileBackedge instructions header
  (List.range backedge).findSome? fun j =>
    if header < j ∧ j + 4 < backedge then
      (matchNullTrapDiamond instructions j).filter fun check =>
        decide (check.last < backedge) && checkIsInvariant instructions header backedge check &&
          decide (check.span ≤ 16)
    else none

/-- The instructions from `first` to `last` become nops. -/
def nopRange (instructions : List IRInstruction) (first last : Nat) : List IRInstruction :=
  instructions.mapIdx fun k c => if first ≤ k ∧ k ≤ last then makeNop c else c

def hoistCheck (instructions : List IRInstruction) (header : Nat) (check : NullCheck) :
    List IRInstruction :=
  instructions.take header ++ (instructions.drop check.first).take check.span ++
    (nopRange instructions check.first check.last).drop header

/-- A round of the pass: the function it is working on, and the place it is at. -/
def nullCheckRound : List IRInstruction × Nat → List IRInstruction × Nat ⊕ List IRInstruction
  | (instructions, i) =>
    if i < instructions.length then
      match hoistAt instructions i with
      | some check => .inl (hoistCheck instructions i check, i + check.span)
      | none => .inl (instructions, i + 1)
    else .inr instructions

/-- The loop of `ir_null_check_licm_pass` from a place on; `none` if the rounds run out. -/
def nullCheckLoop (rounds : Nat) (instructions : List IRInstruction) (i : Nat) :
    Option (List IRInstruction) := runLoop nullCheckRound rounds (instructions, i)

/-- The rounds that are left: a check that is taken out becomes nops. -/
def nullCheckRounds (instructions : List IRInstruction) (i : Nat) : Nat :=
  (instructions.length - i) + (instructions.drop i).countP fun c => c.op != .nop

/-- `ir_null_check_licm_pass`. -/
def irNullCheckLicmPass (function : IRFunction) : IRFunction :=
  { function with
    instructions :=
      (nullCheckLoop (nullCheckRounds function.instructions 0 + 1) function.instructions 0).getD
        function.instructions }

-- ---
-- What is matched
-- ---

structure NullCheck.At (check : NullCheck) (instructions : List IRInstruction) : Prop where
  branch : ∃ c, instructions[check.first]? = some c ∧ c.op = .branchZero ∧
    c.lhs = .symbol check.symbol ∧ c.text = some check.trap
  jump : ∃ c, instructions[check.jumpAt]? = some c ∧ c.op = .jump ∧ c.text = some check.ok
  trap : ∃ c, instructions[check.trapAt]? = some c ∧ c.isLabel check.trap = true
  call : ∃ c, instructions[check.callAt]? = some c ∧ c.op = .call ∧ isCrashTrap c.text = true
  ok : ∃ c, instructions[check.last]? = some c ∧ c.isLabel check.ok = true
  jump_after : check.first < check.jumpAt
  trap_after : check.jumpAt < check.trapAt
  call_after : check.trapAt < check.callAt
  ok_after : check.callAt < check.last
  nops : ∀ q, check.first < q → q < check.last → q ≠ check.jumpAt → q ≠ check.trapAt →
    q ≠ check.callAt → ∃ c, instructions[q]? = some c ∧ c.op = .nop

variable {code instructions : List IRInstruction}

variable {k : Nat}

theorem nextIs_spec {start : Nat} {kind : IRInstruction → Bool}
    (h : nextIs code start kind = some k) :
    start ≤ k ∧ (∃ c, code[k]? = some c ∧ kind c = true) ∧
      ∀ q, start ≤ q → q < k → ∃ c, code[q]? = some c ∧ c.op = .nop := by
  obtain ⟨hNext, hKind⟩ := filter_eq_some_iff.mp h
  obtain ⟨hLe, -, hNops⟩ := findNextNonNop_spec hNext
  refine ⟨hLe, ?_, hNops⟩
  rw [any_eq_true_iff_get] at hKind
  obtain ⟨hSome, hIs⟩ := hKind
  exact ⟨_, (some_get hSome).symm, hIs⟩

variable {symbol : String}

theorem checkedSymbol_spec {branch : IRInstruction} {trap : String}
    (h : checkedSymbol branch = some (symbol, trap)) :
    branch.op = .branchZero ∧ branch.lhs = .symbol symbol ∧ branch.text = some trap := by
  unfold checkedSymbol at h
  split at h
  · rename_i symbol' trap' hLhs hText
    split at h
    · rename_i hAll
      cases h
      exact ⟨hAll.1, hLhs, hText⟩
    · cases h
  · cases h

variable {check : NullCheck}

theorem matchNullTrapDiamond_spec {start : Nat}
    (h : matchNullTrapDiamond instructions start = some check) :
    check.first = start ∧ check.At instructions := by
  unfold matchNullTrapDiamond at h
  simp only [bind_eq_bind, bind_eq_some_iff] at h
  obtain ⟨branch, hBranch, ⟨symbol, trap⟩, hChecked, jumpAt, hJumpAt, jump, hJump, ok, hOk,
    trapAt, hTrapAt, callAt, hCallAt, last, hLast, hEq⟩ := h
  cases hEq
  obtain ⟨hOp, hLhs, hText⟩ := checkedSymbol_spec hChecked
  obtain ⟨hJumpLe, ⟨c, hc, hKind⟩, hJumpNops⟩ := nextIs_spec hJumpAt
  obtain ⟨hTrapLe, hTrap, hTrapNops⟩ := nextIs_spec hTrapAt
  obtain ⟨hCallLe, ⟨d, hd, hCall⟩, hCallNops⟩ := nextIs_spec hCallAt
  obtain ⟨hLastLe, hOkLabel, hLastNops⟩ := nextIs_spec hLast
  rw [hJump] at hc
  cases hc
  rw [Bool.and_eq_true, beq_iff_eq] at hKind hCall
  refine ⟨rfl, ⟨branch, hBranch, hOp, hLhs, hText⟩, ⟨jump, hJump, hKind.1, hOk⟩, hTrap,
    ⟨d, hd, hCall⟩, hOkLabel, hJumpLe, hTrapLe, hCallLe, hLastLe, ?_⟩
  intro q hLo hHi hNotJump hNotTrap hNotCall
  dsimp only at hLo hHi hNotJump hNotTrap hNotCall
  rcases Nat.lt_or_ge q jumpAt with hBefore | hAfter
  · exact hJumpNops q hLo hBefore
  · rcases Nat.lt_or_ge q trapAt with hBefore | hAfter
    · exact hTrapNops q (by omega) hBefore
    · rcases Nat.lt_or_ge q callAt with hBefore | hAfter
      · exact hCallNops q (by omega) hBefore
      · exact hLastNops q (by omega) hHi

variable {header : Nat}

theorem hoistAt_spec (h : hoistAt instructions header = some check) :
    header < check.first ∧ check.At instructions := by
  unfold hoistAt at h
  simp only [bind_eq_bind, bind_eq_some_iff] at h
  obtain ⟨backedge, -, hFound⟩ := h
  obtain ⟨before, j, after, -, hj, -⟩ := findSome?_eq_some_iff.mp hFound
  split at hj
  · rename_i hRange
    obtain ⟨hMatch, -⟩ := filter_eq_some_iff.mp hj
    obtain ⟨hFirst, hAt⟩ := matchNullTrapDiamond_spec hMatch
    exact ⟨by omega, hAt⟩
  · cases hj

-- ---
-- The hoisted function
-- ---

variable {q d : Nat} {c : IRInstruction} {name : String}

section Hoisted

theorem NullCheck.At.last_lt (hAt : check.At code) : check.last < code.length := by
  obtain ⟨c, hc, -⟩ := hAt.ok
  exact (List.getElem_of_getElem? hc).1

theorem NullCheck.At.first_lt (hAt : check.At code) : check.first < check.last := by
  have hJump := hAt.jump_after
  have hTrap := hAt.trap_after
  have hCall := hAt.call_after
  have hOk := hAt.ok_after
  omega

theorem nopRange_getElem? (first last q : Nat) : (nopRange code first last)[q]? =
      if first ≤ q ∧ q ≤ last then code[q]?.map makeNop else code[q]? := by
  rw [nopRange, getElem?_mapIdx]
  split
  · rfl
  · exact map_id'

theorem hoistCheck_before (hHeader : header ≤ code.length) (hLt : q < header) :
    (hoistCheck code header check)[q]? = code[q]? := by
  rw [hoistCheck, append_assoc, getElem?_append_left (by rw [length_take]; omega),
    getElem?_take_of_lt hLt]

theorem hoistCheck_check (hAt : check.At code) (hHeader : header ≤ code.length)
    (hLt : d < check.span) :
    (hoistCheck code header check)[header + d]? = code[check.first + d]? := by
  have hLast := hAt.last_lt
  have hFirst := hAt.first_lt
  have hTake : (code.take header).length = header := by
    rw [length_take]
    omega
  have hSpan : ((code.drop check.first).take check.span).length = check.span := by
    rw [length_take, length_drop, NullCheck.span]
    omega
  rw [hoistCheck, append_assoc, getElem?_append_right (by omega), hTake,
    Nat.add_sub_cancel_left, getElem?_append_left (by omega), getElem?_take_of_lt hLt,
    getElem?_drop]

theorem hoistCheck_behind (hAt : check.At code) (hHeader : header ≤ code.length)
    (hGe : header ≤ q) :
    (hoistCheck code header check)[q + check.span]? =
      if check.first ≤ q ∧ q ≤ check.last then code[q]?.map makeNop
      else code[q]? := by
  have hLast := hAt.last_lt
  have hFirst := hAt.first_lt
  have hFront : (code.take header ++
      (code.drop check.first).take check.span).length = header + check.span := by
    rw [length_append, length_take, length_take, length_drop, NullCheck.span]
    omega
  rw [hoistCheck, getElem?_append_right (by omega), hFront, getElem?_drop,
    show header + (q + check.span - (header + check.span)) = q by omega, nopRange_getElem?]

/-- Where the instruction at `q` has gone. -/
def movedPlace (header span q : Nat) : Nat := if q < header then q else q + span

theorem movedPlace_strictMono (header span : Nat) : StrictMono (movedPlace header span) := by
  intro p q hLt
  unfold movedPlace
  split <;> split <;> omega

theorem hoistCheck_moved (hAt : check.At code) (hHeader : header < check.first)
    (hOut : q < check.first ∨ check.last < q) :
    (hoistCheck code header check)[movedPlace header check.span q]? = code[q]? := by
  have hLast := hAt.last_lt
  have hFirst := hAt.first_lt
  unfold movedPlace
  split
  · rename_i hLt
    exact hoistCheck_before (by omega) hLt
  · rw [hoistCheck_behind hAt (by omega) (by omega), if_neg (by omega)]

theorem NullCheck.At.labels (hAt : check.At code) (hc : code[q]? = some c)
    (hLo : check.first ≤ q) (hHi : q ≤ check.last) (hIs : c.isLabel name = true)
    : name = check.trap ∨ name = check.ok := by
  have hLabel := (isLabel_iff.mp hIs).1
  have hNames : ∀ {d other}, code[q]? = some d → d.isLabel other = true → name = other := by
    intro d other hd hOther
    rw [hc] at hd
    cases hd
    exact some.inj ((isLabel_iff.mp hIs).2.symm.trans (isLabel_iff.mp hOther).2)
  have hNot : ∀ {d op}, code[q]? = some d → d.op = op → op ≠ .label → False := by
    intro d op hd hOp hNe
    rw [hc] at hd
    cases hd
    exact hNe (hOp.symm.trans hLabel)
  by_cases hFirst : q = check.first
  · obtain ⟨d, hd, hOp, -⟩ := hAt.branch
    exact (hNot (hFirst ▸ hd) hOp nofun).elim
  by_cases hLast : q = check.last
  · obtain ⟨d, hd, hOther⟩ := hAt.ok
    exact Or.inr (hNames (hLast ▸ hd) hOther)
  by_cases hJump : q = check.jumpAt
  · obtain ⟨d, hd, hOp, -⟩ := hAt.jump
    exact (hNot (hJump ▸ hd) hOp nofun).elim
  by_cases hTrap : q = check.trapAt
  · obtain ⟨d, hd, hOther⟩ := hAt.trap
    exact Or.inl (hNames (hTrap ▸ hd) hOther)
  by_cases hCall : q = check.callAt
  · obtain ⟨d, hd, hOp, -⟩ := hAt.call
    exact (hNot (hCall ▸ hd) hOp nofun).elim
  obtain ⟨d, hd, hOp⟩ := hAt.nops q (by omega) (by omega) hJump hTrap hCall
  exact (hNot hd hOp nofun).elim

theorem hoistCheck_labelIndex (hAt : check.At code) (hHeader : header < check.first)
    (hTrap : name ≠ check.trap) (hOk : name ≠ check.ok) {k' : Nat}
    (hIndex : labelIndex (hoistCheck code header check) name = some k') :
    ∃ k, labelIndex code name = some k ∧ k' = movedPlace header check.span k ∧
      (k < check.first ∨ check.last < k) := by
  obtain ⟨⟨c, hc, hIs⟩, hBefore⟩ := labelIndex_iff.mp hIndex
  have hLast := hAt.last_lt
  have hFirst := hAt.first_lt
  have hForeign : ∀ {q d}, code[q]? = some d → d.isLabel name = true →
      q < check.first ∨ check.last < q := by
    intro q d hd hLabel
    by_contra hIn
    rcases hAt.labels hd (by omega) (by omega) hLabel with rfl | rfl
    · exact hTrap rfl
    · exact hOk rfl
  -- the label stood at some place before
  have hFrom : ∃ k, k' = movedPlace header check.span k ∧ code[k]? = some c := by
    rcases Nat.lt_or_ge k' header with hLt | hGe
    · refine ⟨k', by rw [movedPlace, if_pos hLt], ?_⟩
      have hSame : (hoistCheck code header check)[k']? = code[k']? :=
        hoistCheck_before (by omega) hLt
      exact hSame.symm.trans hc
    · rcases Nat.lt_or_ge k' (header + check.span) with hIn | hBehind
      · obtain ⟨d, rfl⟩ := Nat.exists_eq_add_of_le hGe
        rw [hoistCheck_check hAt (by omega) (by omega)] at hc
        have hSpan : check.span = check.last - check.first + 1 := rfl
        rcases hForeign hc hIs with hOut | hOut <;> omega
      · obtain ⟨k, rfl⟩ : ∃ k, k' = k + check.span := ⟨k' - check.span, by omega⟩
        rw [hoistCheck_behind hAt (by omega) (by omega)] at hc
        refine ⟨k, by rw [movedPlace, if_neg (by omega)], ?_⟩
        split at hc
        · obtain ⟨d, -, rfl⟩ := map_eq_some_iff.mp hc
          cases hIs
        · exact hc
  obtain ⟨k, rfl, hk⟩ := hFrom
  refine ⟨k, labelIndex_iff.mpr ⟨⟨c, hk, hIs⟩, ?_⟩, rfl, hForeign hk hIs⟩
  intro q d hLt hd
  by_contra hLabel
  rw [Bool.not_eq_false] at hLabel
  rw [← hoistCheck_moved hAt hHeader (hForeign hd hLabel)] at hd
  rw [hBefore _ d (movedPlace_strictMono _ _ hLt) hd] at hLabel
  cases hLabel

theorem hoistCheck_own_label (hAt : check.At code) (hHeader : header < check.first)
    (hIndex : labelIndex code name = some k) (hLo : check.first ≤ k)
    (hHi : k ≤ check.last) :
    labelIndex (hoistCheck code header check) name = some (header + (k - check.first)) := by
  obtain ⟨⟨c, hc, hIs⟩, hBefore⟩ := labelIndex_iff.mp hIndex
  have hLast := hAt.last_lt
  have hSpan : check.span = check.last - check.first + 1 := rfl
  refine labelIndex_iff.mpr ⟨⟨c, ?_, hIs⟩, ?_⟩
  · rw [hoistCheck_check hAt (by omega) (by omega), Nat.add_sub_cancel' hLo]
    exact hc
  · intro q d hLt hd
    rcases Nat.lt_or_ge q header with hFront | hIn
    · rw [hoistCheck_before (by omega) hFront] at hd
      exact hBefore q d (by omega) hd
    · obtain ⟨e, rfl⟩ := Nat.exists_eq_add_of_le hIn
      rw [hoistCheck_check hAt (by omega) (by omega)] at hd
      exact hBefore _ d (by omega) hd

theorem countP_lt_of_getElem? {α : Type} {p : α → Bool} {a b : List α}
    (hLength : a.length = b.length)
    (hAll : ∀ (q : Nat) x y, a[q]? = some x → b[q]? = some y → p x = true → p y = true) {x y : α}
    (hx : a[k]? = some x) (hy : b[k]? = some y) (hNot : p x = false) (hIs : p y = true) :
    a.countP p < b.countP p := by
  have hLe : ∀ (a b : List α), a.length = b.length →
      (∀ (q : Nat) x y, a[q]? = some x → b[q]? = some y → p x = true → p y = true) →
      a.countP p ≤ b.countP p := by
    intro a
    induction a with
    | nil => exact fun _ _ _ => Nat.zero_le _
    | cons x a ih =>
      intro b hLength hAll
      cases b with
      | nil => cases hLength
      | cons y b =>
        have hRest := ih b (Nat.succ.inj hLength) fun q x' y' hx hy => hAll (q + 1) x' y' hx hy
        rw [countP_cons, countP_cons]
        cases hHead : p x with
        | false => rw [if_neg Bool.false_ne_true]; omega
        | true => rw [hAll 0 x y rfl rfl hHead]; omega
  obtain ⟨hk, hGet⟩ := List.getElem_of_getElem? hx
  have hSet : (a.set k y).countP p = a.countP p + 1 := by
    rw [countP_set hk, hGet, hNot, hIs]
    rfl
  have hBelow : (a.set k y).countP p ≤ b.countP p := by
    refine hLe _ _ (by rw [length_set, hLength]) fun q x' y' hx' hy' hpx => ?_
    by_cases hq : k = q
    · rw [← hq, hy] at hy'
      cases hy'
      exact hIs
    · rw [getElem?_set_ne hq] at hx'
      exact hAll q x' y' hx' hy' hpx
  omega

theorem nullCheckRounds_hoist (hAt : check.At code) (hHeader : header < check.first) :
    nullCheckRounds (hoistCheck code header check) (header + check.span) <
      nullCheckRounds code header := by
  have hLast := hAt.last_lt
  have hFirst := hAt.first_lt
  obtain ⟨branch, hBranch, hOp, -⟩ := hAt.branch
  have hFront : (code.take header ++
      (code.drop check.first).take check.span).length = header + check.span := by
    rw [length_append, length_take, length_take, length_drop, NullCheck.span]
    omega
  have hDrop : (hoistCheck code header check).drop (header + check.span) =
      (nopRange code check.first check.last).drop header := by
    rw [hoistCheck, ← hFront, drop_left]
  have hLength : (nopRange code check.first check.last).length = code.length :=
    length_mapIdx
  have hNew : (hoistCheck code header check).length = code.length + check.span := by
    rw [hoistCheck, length_append, hFront, length_drop, hLength]
    omega
  have hCount : ((nopRange code check.first check.last).drop header).countP
      (fun c => c.op != .nop) < (code.drop header).countP fun c => c.op != .nop := by
    have hOld : (code.drop header)[check.first - header]? = some branch := by
      rw [getElem?_drop, Nat.add_sub_cancel' (by omega)]
      exact hBranch
    have hNop : ((nopRange code check.first check.last).drop header)[check.first - header]? =
        some (makeNop branch) := by
      rw [getElem?_drop, Nat.add_sub_cancel' (by omega), nopRange_getElem?,
        if_pos (by omega), hBranch]
      rfl
    refine countP_lt_of_getElem? (by rw [length_drop, length_drop, hLength]) ?_ hNop hOld
      rfl (by rw [hOp]; rfl)
    intro q x y hx hy hIs
    rw [getElem?_drop] at hx hy
    rw [nopRange_getElem?, hy] at hx
    split at hx
    · cases hx
      cases hIs
    · cases hx
      exact hIs
  rw [nullCheckRounds, nullCheckRounds, hDrop, hNew]
  omega

theorem nullCheckRound_less (s next : List IRInstruction × Nat) (h : nullCheckRound s = .inl next) :
    nullCheckRounds next.1 next.2 < nullCheckRounds s.1 s.2 := by
  obtain ⟨instructions, i⟩ := s
  dsimp only [nullCheckRound] at h
  split at h
  · split at h
    · rename_i check hHoist
      cases h
      obtain ⟨hHeader, hAt⟩ := hoistAt_spec hHoist
      exact nullCheckRounds_hoist hAt hHeader
    · cases h
      have hCount := (drop_sublist 1 (instructions.drop i)).countP_le (p := fun c => c.op != .nop)
      rw [drop_drop] at hCount
      dsimp only [nullCheckRounds]
      omega
  · cases h

/-- **The pass returns** on every function: its loop ends with a result, and the rounds that are
counted for it are enough. -/
theorem irNullCheckLicmPass_returns (function : IRFunction) (extra : Nat) :
    nullCheckLoop (nullCheckRounds function.instructions 0 + 1 + extra) function.instructions 0 =
      some (irNullCheckLicmPass function).instructions := by
  obtain ⟨result, hResult⟩ := runLoop_returns (fun s => nullCheckRounds s.1 s.2)
    nullCheckRound_less (function.instructions, 0)
  have hPass : (irNullCheckLicmPass function).instructions = result := by
    show (nullCheckLoop (_ + 1) _ 0).getD _ = _
    exact congrArg (Option.getD · function.instructions) (hResult 0)
  rw [hPass]
  exact hResult extra

end Hoisted

-- ---
-- When a check may be taken out
-- ---

section Runs

variable {V M : Type}

def NonNull (machine : Machine V M) (state : IRState V M) (operand : IROperand) : Prop :=
  ∃ v, machine.value state operand = some v ∧ machine.isZero v = false

/-- The step enters the loop from above: it comes from the instruction in front of the header,
and not by a jump to it. -/
def FallsInto (instructions : List IRInstruction) (header : Nat) (before after : IRState V M) :
    Prop :=
  after.pc = header ∧ before.pc + 1 = header ∧
    ∀ c name, instructions[before.pc]? = some c → c.mayJump = true → c.text = some name →
      labelIndex instructions name ≠ some header

/-- When the loop was last entered from above, if at all, the symbol was not null. -/
inductive EnteredSafely (machine : Machine V M) (instructions : List IRInstruction)
    (start : IRState V M) (header : Nat) (symbol : String) : List Nat → IRState V M → Prop
  | start : (start.pc = header → NonNull machine start (.symbol symbol)) →
    EnteredSafely machine instructions start header symbol [] start
  | enter {path : List Nat} {before after : IRState V M} :
    machine.Reaches instructions start path before →
    machine.step instructions before = .running after →
    FallsInto instructions header before after → NonNull machine after (.symbol symbol) →
    EnteredSafely machine instructions start header symbol (before.pc :: path) after
  | step {path : List Nat} {before after : IRState V M} :
    EnteredSafely machine instructions start header symbol path before →
    machine.step instructions before = .running after →
    ¬ FallsInto instructions header before after →
    EnteredSafely machine instructions start header symbol (before.pc :: path) after

/-- What makes it safe to take a check out of the loop at `header`: its labels are its own, and
on every run that comes to it, having entered the loop safely, the symbol is not null. -/
structure CheckHoists (machine : Machine V M) (instructions : List IRInstruction)
    (start : IRState V M) (header : Nat) (check : NullCheck) : Prop where
  trapAt : labelIndex instructions check.trap = some check.trapAt
  okAt : labelIndex instructions check.ok = some check.last
  own : ∀ (q : Nat) c, instructions[q]? = some c → c.mayJump = true →
    c.text = some check.trap ∨ c.text = some check.ok → check.first ≤ q ∧ q ≤ check.last
  again : ∀ path state, EnteredSafely machine instructions start header check.symbol path state →
    state.pc = check.first → NonNull machine state (.symbol check.symbol)

variable {machine : Machine V M} {start : IRState V M} {path : List Nat} {s s' t' : IRState V M}

theorem EnteredSafely.reaches (h : EnteredSafely machine code start header symbol path s) :
    machine.Reaches code start path s := by
  induction h with
  | start _ => exact .start
  | enter hReach hStep _ _ => exact hReach.step hStep
  | step _ hStep _ ih => exact ih.step hStep

theorem NonNull.pc {operand : IROperand} (h : NonNull machine s operand) (pc : Nat) :
    NonNull machine { s with pc } operand := by
  obtain ⟨v, hv, hZero⟩ := h
  exact ⟨v, (machine.value_pc s pc operand).trans hv, hZero⟩

theorem EnteredSafely.skip {lo hi : Nat} (hHeader : header < lo) (hLe : lo ≤ hi)
    (hNops : ∀ q, lo ≤ q → q < hi → ∃ c, code[q]? = some c ∧ (c.op = .nop ∨ c.op = .label))
    (h : EnteredSafely machine code start header symbol path { s with pc := lo }) :
    ∃ path', EnteredSafely machine code start header symbol path' { s with pc := hi } := by
  induction hLe with
  | refl => exact ⟨path, h⟩
  | @step hi hLe ih =>
    obtain ⟨path', hPath⟩ := ih fun q hLo hHi => hNops q hLo (by omega)
    obtain ⟨c, hc, hOp⟩ := hNops hi hLe (by omega)
    have hStep : machine.step code { s with pc := hi } = .running { s with pc := hi + 1 } := by
      rw [step_at hc, Machine.execute]
      rcases hOp with hOp | hOp <;> rw [hOp] <;> rfl
    refine ⟨hi :: path', hPath.step hStep ?_⟩
    rintro ⟨hPc, -⟩
    have hBehind : lo ≤ hi := hLe
    dsimp only at hPc
    omega

/-- **A check that does not fail is passed.** -/
theorem EnteredSafely.passes (hAt : check.At code) (hHeader : header < check.first)
    (hOkAt : labelIndex code check.ok = some check.last)
    (h : EnteredSafely machine code start header check.symbol path s)
    (hPc : s.pc = check.first) (hNonNull : NonNull machine s (.symbol check.symbol)) :
    ∃ path', EnteredSafely machine code start header check.symbol path'
      { s with pc := check.last + 1 } := by
  have hJumpAfter := hAt.jump_after
  have hTrapAfter := hAt.trap_after
  have hCallAfter := hAt.call_after
  have hOkAfter := hAt.ok_after
  obtain ⟨branch, hBranch, hBranchOp, hBranchLhs, hBranchText⟩ := hAt.branch
  obtain ⟨jump, hJump, hJumpOp, hJumpText⟩ := hAt.jump
  obtain ⟨label, hLabel, hLabelIs⟩ := hAt.ok
  obtain ⟨v, hv, hZero⟩ := hNonNull
  have hNext : EnteredSafely machine code start header check.symbol (s.pc :: path)
      { s with pc := check.first + 1 } := by
    refine h.step ?_ ?_
    · rw [step_at (hPc ▸ hBranch), Machine.execute, hBranchOp, hBranchLhs]
      rw [hv]
      dsimp only
      rw [hZero, if_neg Bool.false_ne_true, IRState.next, hPc]
    · rintro ⟨hAfter, -⟩
      dsimp only at hAfter
      omega
  obtain ⟨path', hToJump⟩ := hNext.skip (by omega) hJumpAfter fun q hLo hHi => by
    obtain ⟨c, hc, hNop⟩ := hAt.nops q (by omega) (by omega) (by omega) (by omega) (by omega)
    exact ⟨c, hc, Or.inl hNop⟩
  have hToOk : EnteredSafely machine code start header check.symbol
      (check.jumpAt :: path') { s with pc := check.last } := by
    have hStep : machine.step code { s with pc := check.jumpAt } =
        .running { s with pc := check.last } := by
      rw [step_at hJump, Machine.execute, hJumpOp]
      rw [hJumpText, jumpTo, hOkAt]
    refine hToJump.step hStep ?_
    rintro ⟨hAfter, -⟩
    dsimp only at hAfter
    omega
  exact hToOk.skip (by omega) (Nat.le_succ _) fun q hLo hHi => by
    obtain rfl : q = check.last := by omega
    exact ⟨label, hLabel, Or.inr (isLabel_iff.mp hLabelIs).1⟩

-- ---
-- One check
-- ---

/-- How far the check in front of the header has come: at the branch, past it, or on the way to
the trap. -/
def Checking (machine : Machine V M) (check : NullCheck) (s : IRState V M) (d : Nat) : Prop :=
  d = 0 ∨ ((0 < d ∧ d ≤ check.jumpAt - check.first ∨ d = check.last - check.first) ∧
      NonNull machine s (.symbol check.symbol)) ∨
    (check.trapAt - check.first ≤ d ∧ d ≤ check.callAt - check.first)

/-- A state of the old function, reached over `path`, and one of the new function. -/
inductive HoistRel (machine : Machine V M) (instructions : List IRInstruction)
    (start : IRState V M) (header : Nat) (check : NullCheck) (path : List Nat)
    (s s' : IRState V M) : Prop
  /-- The two are at the same instruction. -/
  | same : EnteredSafely machine instructions start header check.symbol path s →
    s.pc < check.first ∨ check.last < s.pc →
    s' = { s with pc := movedPlace header check.span s.pc } →
    HoistRel machine instructions start header check path s s'
  /-- The new one is in the nops where the check was; the old one waits in front of the check. -/
  | passing (d : Nat) : EnteredSafely machine instructions start header check.symbol path s →
    s.pc = check.first → d ≤ check.last - check.first →
    s' = { s with pc := check.first + check.span + d } →
    HoistRel machine instructions start header check path s s'
  /-- The new one makes the check; the old one waits at the header. -/
  | checking (d : Nat) : machine.Reaches instructions start path s → s.pc = header →
    (NonNull machine s (.symbol check.symbol) →
      EnteredSafely machine instructions start header check.symbol path s) →
    Checking machine check s d → s' = { s with pc := header + d } →
    HoistRel machine instructions start header check path s s'

theorem step_idle {pc : Nat} (hc : code[pc]? = some c) (hOp : c.op = .nop ∨ c.op = .label)
    (hStep : machine.step code { s with pc } = .running t') : t' = { s with pc := pc + 1 } := by
  rw [step_at hc, Machine.execute] at hStep
  rcases hOp with hOp | hOp <;> rw [hOp] at hStep <;> exact (Outcome.running.inj hStep).symm

section

variable (hAt : check.At code) (hHeader : header < check.first)
  (hHoists : CheckHoists machine code start header check)
include hAt hHeader hHoists

theorem hoist_step_checking (hTrap : ∀ callee arguments memory,
      isCrashTrap (some callee) = true → machine.call callee arguments memory = none)
    (hReach : machine.Reaches code start path s) (hPc : s.pc = header) (hEnter : NonNull
      machine s (.symbol check.symbol) → EnteredSafely machine code start header
      check.symbol path s) (hChecking : Checking machine check s d) (hStep : machine.step
      (hoistCheck code header check) { s with pc := header + d } = .running t') :
    HoistRel machine code start header check path s t' := by
  have hJumpAfter := hAt.jump_after
  have hTrapAfter := hAt.trap_after
  have hCallAfter := hAt.call_after
  have hOkAfter := hAt.ok_after
  have hLast := hAt.last_lt
  have hSpan : check.span = check.last - check.first + 1 := rfl
  have hGet : ∀ {q c}, code[q]? = some c → check.first ≤ q → q ≤ check.last →
      (hoistCheck code header check)[header + (q - check.first)]? = some c := by
    intro q c hc hLo hHi
    rw [hoistCheck_check hAt (by omega) (by omega), Nat.add_sub_cancel' hLo]
    exact hc
  rcases hChecking with rfl | ⟨hPassed, hNonNull⟩ | ⟨hLo, hHi⟩
  · obtain ⟨c, hc, hOp, hLhs, hText⟩ := hAt.branch
    have hNew := hGet hc (Nat.le_refl _) (by omega)
    rw [Nat.sub_self] at hNew
    rw [step_at hNew, Machine.execute, hOp, hLhs] at hStep
    rw [machine.value_pc] at hStep
    cases hv : machine.value s (.symbol check.symbol) with
    | none =>
      rw [hv] at hStep
      cases hStep
    | some v =>
      rw [hv] at hStep
      dsimp only at hStep
      split at hStep
      · rw [hText] at hStep
        obtain ⟨name, k, hName, hIndex, rfl⟩ := jumpTo_running hStep
        cases hName
        rw [hoistCheck_own_label hAt hHeader hHoists.trapAt (by omega) (by omega)] at hIndex
        cases hIndex
        exact .checking _ hReach hPc hEnter (Or.inr (Or.inr ⟨Nat.le_refl _, by omega⟩)) rfl
      · rename_i hNotZero
        cases hStep
        refine .checking 1 hReach hPc hEnter (Or.inr (Or.inl ⟨Or.inl (by omega), v, hv, ?_⟩))
          rfl
        exact Bool.eq_false_iff.mpr hNotZero
  · rcases Nat.eq_or_lt_of_le (show d ≤ check.last - check.first by omega) with hEnd | hInner
    · -- the label behind the check: the header comes next
      obtain ⟨c, hc, hIs⟩ := hAt.ok
      have hNew := hGet hc (by omega) (Nat.le_refl _)
      rw [← hEnd] at hNew
      have hNext := step_idle hNew (Or.inr (isLabel_iff.mp hIs).1) hStep
      refine .same (hEnter hNonNull) (Or.inl (by omega)) ?_
      rw [hNext, movedPlace, if_neg (by omega), hPc, hSpan, hEnd, Nat.add_assoc]
    · have hLe : d ≤ check.jumpAt - check.first := by omega
      rcases Nat.eq_or_lt_of_le hLe with hEq | hLt
      · obtain ⟨c, hc, hOp, hText⟩ := hAt.jump
        have hNew := hGet hc (by omega) (by omega)
        rw [← hEq] at hNew
        rw [step_at hNew, Machine.execute, hOp] at hStep
        rw [hText] at hStep
        obtain ⟨name, k, hName, hIndex, rfl⟩ := jumpTo_running hStep
        cases hName
        rw [hoistCheck_own_label hAt hHeader hHoists.okAt (by omega) (by omega)] at hIndex
        cases hIndex
        exact .checking _ hReach hPc hEnter (Or.inr (Or.inl ⟨Or.inr rfl, hNonNull⟩)) rfl
      · obtain ⟨c, hc, hOp⟩ := hAt.nops (check.first + d) (by omega) (by omega) (by omega)
          (by omega) (by omega)
        have hNew := hGet hc (by omega) (by omega)
        rw [Nat.add_sub_cancel_left] at hNew
        have hNext := step_idle hNew (Or.inl hOp) hStep
        exact .checking (d + 1) hReach hPc hEnter
          (Or.inr (Or.inl ⟨Or.inl (by omega), hNonNull⟩)) hNext
  · rcases Nat.eq_or_lt_of_le hHi with hEq | hLt
    · -- the call does not return
      obtain ⟨c, hc, hOp, hCallee⟩ := hAt.call
      have hNew := hGet hc (by omega) (by omega)
      rw [← hEq] at hNew
      rw [step_at hNew, Machine.execute, hOp] at hStep
      dsimp only at hStep
      split at hStep
      · rename_i callee arguments hText hArguments
        rw [hTrap _ _ _ (hText ▸ hCallee)] at hStep
        cases hStep
      · cases hStep
    · have hIdle : ∃ c, code[check.first + d]? = some c ∧ (c.op = .nop ∨ c.op = .label) := by
        rcases Nat.eq_or_lt_of_le hLo with hEq | hGt
        · obtain ⟨c, hc, hIs⟩ := hAt.trap
          refine ⟨c, ?_, Or.inr (isLabel_iff.mp hIs).1⟩
          rw [← hEq, Nat.add_sub_cancel' (by omega)]
          exact hc
        · obtain ⟨c, hc, hOp⟩ := hAt.nops (check.first + d) (by omega) (by omega) (by omega)
            (by omega) (by omega)
          exact ⟨c, hc, Or.inl hOp⟩
      obtain ⟨c, hc, hOp⟩ := hIdle
      have hNew := hGet hc (by omega) (by omega)
      rw [Nat.add_sub_cancel_left] at hNew
      have hNext := step_idle hNew hOp hStep
      exact .checking (d + 1) hReach hPc hEnter (Or.inr (Or.inr ⟨by omega, by omega⟩)) hNext

theorem hoist_step_passing (hSafe : EnteredSafely machine code start header check.symbol path s)
    (hPc : s.pc = check.first) (hLe : d ≤ check.last - check.first) (hStep : machine.step
      (hoistCheck code header check) { s with pc := check.first + check.span + d } =
      .running t') :
    ∃ path' t, HoistRel machine code start header check path' t t' := by
  have hFirst := hAt.first_lt
  have hLast := hAt.last_lt
  have hNop : ∃ c, (hoistCheck code header check)[check.first + check.span + d]? =
      some (makeNop c) := by
    refine ⟨code[check.first + d], ?_⟩
    rw [Nat.add_right_comm, hoistCheck_behind hAt (by omega) (by omega), if_pos (by omega),
      getElem?_eq_getElem (by omega), map_some]
  obtain ⟨c, hc⟩ := hNop
  have hNext := step_idle hc (Or.inl rfl) hStep
  rcases Nat.eq_or_lt_of_le hLe with hEnd | hInner
  · obtain ⟨path', hPassed⟩ := hSafe.passes hAt hHeader hHoists.okAt hPc
      (hHoists.again path s hSafe hPc)
    refine ⟨path', _, .same hPassed (Or.inr (Nat.lt_succ_self _)) ?_⟩
    rw [hNext, movedPlace, if_neg (by dsimp only; omega)]
    have hPlace : check.first + check.span + d + 1 = check.last + 1 + check.span := by omega
    rw [hPlace]
  · exact ⟨path, s, .passing (d + 1) hSafe hPc hInner hNext⟩

theorem hoist_step_same (hSafe : EnteredSafely machine code start header check.symbol path s)
    (hOut : s.pc < check.first ∨ check.last < s.pc)
    (hStep : machine.step (hoistCheck code header check)
      { s with pc := movedPlace header check.span s.pc } = .running t') :
    ∃ path' t, HoistRel machine code start header check path' t t' := by
  obtain ⟨c, hc, hExec⟩ := step_running hStep
  rw [hoistCheck_moved hAt hHeader hOut] at hc
  rcases execute_moved_cases c code (hoistCheck code header check) s
    (movedPlace header check.span s.pc) with ⟨hNext, hMoved⟩ | ⟨hJump, hOld, hNew⟩
  · rw [hMoved] at hExec
    cases hOld : machine.execute code s c with
    | returned value last =>
      rw [hOld] at hExec
      cases hExec
    | stuck last =>
      rw [hOld] at hExec
      cases hExec
    | running t =>
      rw [hOld] at hExec
      have hEq : t' = { t with pc := movedPlace header check.span s.pc + 1 } :=
        (Outcome.running.inj hExec).symm
      have hPc := hNext t hOld
      have hOldStep : machine.step code s = .running t := (step_at hc).trans hOld
      refine ⟨s.pc :: path, t, ?_⟩
      by_cases hEnters : t.pc = header
      · -- the loop is entered: the check comes first
        refine .checking 0 (hSafe.reaches.step hOldStep) hEnters ?_ (Or.inl rfl) ?_
        · intro hNonNull
          by_cases hFalls : FallsInto code header s t
          · exact .enter hSafe.reaches hOldStep hFalls hNonNull
          · exact hSafe.step hOldStep hFalls
        · rw [hEq, movedPlace, if_pos (by omega), ← hPc, hEnters]
          rfl
      · have hGo := hSafe.step hOldStep fun hFalls => hEnters hFalls.1
        by_cases hCheck : t.pc = check.first
        · refine .passing 0 hGo hCheck (Nat.zero_le _) ?_
          rw [hEq, movedPlace, if_neg (by omega), Nat.add_right_comm, ← hPc, hCheck]
          rfl
        · refine .same hGo (by omega) ?_
          rw [hEq, hPc, movedPlace, movedPlace]
          have hPlace : (if s.pc < header then s.pc else s.pc + check.span) + 1 =
              if s.pc + 1 < header then s.pc + 1 else s.pc + 1 + check.span := by
            split <;> split <;> omega
          rw [hPlace]
  · rw [hNew] at hExec
    obtain ⟨name, k', hName, hIndex, rfl⟩ := jumpTo_running hExec
    have hForeign : name ≠ check.trap ∧ name ≠ check.ok := by
      constructor
      · rintro rfl
        have hIn := hHoists.own s.pc c hc hJump (Or.inl hName)
        omega
      · rintro rfl
        have hIn := hHoists.own s.pc c hc hJump (Or.inr hName)
        omega
    obtain ⟨k, hk, rfl, hOutside⟩ :=
      hoistCheck_labelIndex hAt hHeader hForeign.1 hForeign.2 hIndex
    have hOldStep : machine.step code s = .running { s with pc := k } := by
      rw [step_at hc, hOld, hName, jumpTo, hk]
    refine ⟨s.pc :: path, { s with pc := k }, .same (hSafe.step hOldStep ?_) hOutside rfl⟩
    rintro ⟨hPc, -, hNot⟩
    exact hNot c name hc hJump hName (hPc ▸ hk)

/-- **One check.** -/
theorem hoist_runs (hTrap : ∀ callee arguments memory, isCrashTrap (some callee) = true →
      machine.call callee arguments memory = none) (hStart : start.pc = 0) {path' : List Nat}
    (hReach : machine.Reaches (hoistCheck code header check) start path' s') :
    ∃ path s, HoistRel machine code start header check path s s' := by
  induction hReach with
  | start =>
    by_cases hEntry : header = 0
    · refine ⟨[], start, .checking 0 .start (hStart.trans hEntry.symm) ?_ (Or.inl rfl) ?_⟩
      · intro hNonNull
        exact .start fun _ => hNonNull
      · rw [show header + 0 = start.pc by omega]
    · refine ⟨[], start, .same (.start fun hPc => ?_) (Or.inl (by omega)) ?_⟩
      · exact absurd (hPc.symm.trans hStart) hEntry
      · rw [movedPlace, if_pos (by omega)]
  | step _ hStep ih =>
    obtain ⟨path, s, hRel⟩ := ih
    cases hRel with
    | same hSafe hOut hEq =>
      subst hEq
      exact hoist_step_same hAt hHeader hHoists hSafe hOut hStep
    | passing d hSafe hPc hLe hEq =>
      subst hEq
      exact hoist_step_passing hAt hHeader hHoists hSafe hPc hLe hStep
    | checking d hOld hPc hEnter hChecking hEq =>
      subst hEq
      exact ⟨path, s, hoist_step_checking hAt hHeader hHoists hTrap hOld hPc hEnter hChecking hStep⟩

end

-- ---
-- The pass keeps dereferences guarded
-- ---

def IROpcode.dereferences : IROpcode → Bool
  | .load | .store => true
  | op => op.isKernel

/-- Whenever the instruction at `place` is executed, the operand is not null. -/
def Guarded (machine : Machine V M) (instructions : List IRInstruction) (start : IRState V M)
    (operand : IROperand) (place : Nat) : Prop :=
  ∀ path s, machine.Reaches instructions start path s → s.pc = place → NonNull machine s operand

/-- The dereferences of the old function have gone to new places, in the same order, and are
executed only in states in which the old function executes them. -/
structure DerefsKept (machine : Machine V M) (start : IRState V M)
    (old new : List IRInstruction) (place : Nat → Nat) : Prop where
  mono : StrictMono place
  stay : ∀ (q : Nat) c, old[q]? = some c → c.op.dereferences = true → new[place q]? = some c
  origin : ∀ (q' : Nat) c, new[q']? = some c → c.op.dereferences = true →
    ∃ q, place q = q' ∧ old[q]? = some c
  runs : ∀ (q : Nat) c, old[q]? = some c → c.op.dereferences = true →
    ∀ path' s', machine.Reaches new start path' s' → s'.pc = place q →
      ∃ path, machine.Reaches old start path { s' with pc := q }

theorem DerefsKept.refl (machine : Machine V M) (start : IRState V M) (code : List IRInstruction) :
    DerefsKept machine start code code id where
  mono := strictMono_id
  stay _ _ hc _ := hc
  origin q c hc _ := ⟨q, rfl, hc⟩
  runs q c _ _ path s hReach hPc := ⟨path, by rw [← show s.pc = q from hPc]; exact hReach⟩

theorem DerefsKept.trans {old middle new : List IRInstruction} {place place' : Nat → Nat}
    (h : DerefsKept machine start old middle place)
    (h' : DerefsKept machine start middle new place') :
    DerefsKept machine start old new (place' ∘ place) where
  mono := h'.mono.comp h.mono
  stay q c hc hDeref := h'.stay _ c (h.stay q c hc hDeref) hDeref
  origin q' c hc hDeref := by
    obtain ⟨m, rfl, hm⟩ := h'.origin q' c hc hDeref
    obtain ⟨q, rfl, hq⟩ := h.origin m c hm hDeref
    exact ⟨q, rfl, hq⟩
  runs q c hc hDeref path' s' hReach hPc := by
    obtain ⟨path, hMiddle⟩ := h'.runs _ c (h.stay q c hc hDeref) hDeref path' s' hReach hPc
    exact h.runs q c hc hDeref path { s' with pc := place q } hMiddle rfl

theorem DerefsKept.guarded {old new : List IRInstruction} {place : Nat → Nat}
    (h : DerefsKept machine start old new place) (hc : old[q]? = some c)
    (hDeref : c.op.dereferences = true) {operand : IROperand}
    (hGuarded : Guarded machine old start operand q) :
    Guarded machine new start operand (place q) := by
  intro path' s' hReach hPc
  obtain ⟨path, hOld⟩ := h.runs q c hc hDeref path' s' hReach hPc
  exact (hGuarded path _ hOld rfl).pc s'.pc

theorem NullCheck.At.deref_outside (hAt : check.At code) (hc : code[q]? = some c)
    (hDeref : c.op.dereferences = true) :
    q < check.first ∨ check.last < q := by
  have hNot : ∀ {d op}, code[q]? = some d → d.op = op → op.dereferences = false →
      False := by
    intro d op hd hOp hNo
    rw [hc] at hd
    cases hd
    rw [hOp, hNo] at hDeref
    cases hDeref
  by_contra hIn
  by_cases hFirst : q = check.first
  · obtain ⟨d, hd, hOp, -⟩ := hAt.branch
    exact hNot (hFirst ▸ hd) hOp rfl
  by_cases hLast : q = check.last
  · obtain ⟨d, hd, hIs⟩ := hAt.ok
    exact hNot (hLast ▸ hd) (isLabel_iff.mp hIs).1 rfl
  by_cases hJump : q = check.jumpAt
  · obtain ⟨d, hd, hOp, -⟩ := hAt.jump
    exact hNot (hJump ▸ hd) hOp rfl
  by_cases hTrap : q = check.trapAt
  · obtain ⟨d, hd, hIs⟩ := hAt.trap
    exact hNot (hTrap ▸ hd) (isLabel_iff.mp hIs).1 rfl
  by_cases hCall : q = check.callAt
  · obtain ⟨d, hd, hOp, -⟩ := hAt.call
    exact hNot (hCall ▸ hd) hOp rfl
  obtain ⟨d, hd, hOp⟩ := hAt.nops q (by omega) (by omega) hJump hTrap hCall
  exact hNot hd hOp rfl

theorem hoist_derefsKept (hAt : check.At code) (hHeader : header < check.first)
    (hHoists : CheckHoists machine code start header check)
    (hTrap : ∀ callee arguments memory, isCrashTrap (some callee) = true →
      machine.call callee arguments memory = none) (hStart : start.pc = 0) :
    DerefsKept machine start code (hoistCheck code header check)
      (movedPlace header check.span) where
  mono := movedPlace_strictMono _ _
  stay q c hc hDeref := by
    rw [hoistCheck_moved hAt hHeader (hAt.deref_outside hc hDeref)]
    exact hc
  origin q' c hc hDeref := by
    have hLast := hAt.last_lt
    have hFirst := hAt.first_lt
    rcases Nat.lt_or_ge q' header with hLt | hGe
    · refine ⟨q', by rw [movedPlace, if_pos hLt], ?_⟩
      rw [hoistCheck_before (by omega) hLt] at hc
      exact hc
    · rcases Nat.lt_or_ge q' (header + check.span) with hIn | hBehind
      · obtain ⟨d, rfl⟩ := Nat.exists_eq_add_of_le hGe
        rw [hoistCheck_check hAt (by omega) (by omega)] at hc
        have hSpan : check.span = check.last - check.first + 1 := rfl
        rcases hAt.deref_outside hc hDeref with hOut | hOut <;> omega
      · obtain ⟨q, rfl⟩ : ∃ q, q' = q + check.span := ⟨q' - check.span, by omega⟩
        refine ⟨q, by rw [movedPlace, if_neg (by omega)], ?_⟩
        rw [hoistCheck_behind hAt (by omega) (by omega)] at hc
        split at hc
        · obtain ⟨d, -, rfl⟩ := map_eq_some_iff.mp hc
          cases hDeref
        · exact hc
  runs q c hc hDeref path' s' hReach hPc := by
    have hOutside := hAt.deref_outside hc hDeref
    have hFirst := hAt.first_lt
    obtain ⟨path, s, hRel⟩ := hoist_runs hAt hHeader hHoists hTrap hStart hReach
    cases hRel with
    | same hSafe _ hEq =>
      subst hEq
      obtain rfl := (movedPlace_strictMono header check.span).injective hPc
      exact ⟨path, hSafe.reaches⟩
    | passing d _ _ hLe hEq =>
      -- there are only nops
      subst hEq
      dsimp only [movedPlace] at hPc
      split at hPc <;> omega
    | checking d _ _ _ hChecking hEq =>
      subst hEq
      have hTrapAfter := hAt.trap_after
      have hCall := hAt.call_after
      have hOk := hAt.ok_after
      have hSpan : check.span = check.last - check.first + 1 := rfl
      have hInside : d < check.span := by
        rcases hChecking with rfl | ⟨hPassed, -⟩ | ⟨-, hHi⟩ <;> omega
      dsimp only [movedPlace] at hPc
      split at hPc <;> omega

/-- The states of the pass: the function it is working on, and the place it is at. -/
inductive Hoisting (instructions : List IRInstruction) : List IRInstruction → Nat → Prop
  | start : Hoisting instructions instructions 0
  | skip {current : List IRInstruction} {i : Nat} : Hoisting instructions current i →
    hoistAt current i = none → Hoisting instructions current (i + 1)
  | hoist {current : List IRInstruction} {i : Nat} {check : NullCheck} :
    Hoisting instructions current i → hoistAt current i = some check →
    Hoisting instructions (hoistCheck current i check) (i + check.span)

theorem nullCheckLoop_derefsKept
    (hTrap : ∀ callee arguments memory, isCrashTrap (some callee) = true →
      machine.call callee arguments memory = none) (hStart : start.pc = 0)
    (hHoists : ∀ current i check, Hoisting code current i →
      hoistAt current i = some check → CheckHoists machine current start i check)
    {rounds : Nat} {result : List IRInstruction} (hRun : nullCheckLoop rounds code 0 = some result) :
    ∃ place, DerefsKept machine start code result place := by
  refine runLoop_invariant
    (fun s => Hoisting code s.1 s.2 ∧ ∃ place, DerefsKept machine start code s.1 place)
    (fun last => ∃ place, DerefsKept machine start code last place)
    ?_ ?_ ⟨.start, id, DerefsKept.refl machine start code⟩ hRun
  · rintro ⟨current, i⟩ next ⟨hPass, place, hKept⟩ hRound
    dsimp only [nullCheckRound] at hRound
    split at hRound
    · split at hRound
      · rename_i check hHoist
        cases hRound
        obtain ⟨hHeader, hAt⟩ := hoistAt_spec hHoist
        have hOne := hoist_derefsKept hAt hHeader (hHoists current i check hPass hHoist) hTrap hStart
        exact ⟨hPass.hoist hHoist, _, hKept.trans hOne⟩
      · rename_i hNone
        cases hRound
        exact ⟨hPass.skip hNone, place, hKept⟩
    · cases hRound
  · rintro ⟨current, i⟩ last ⟨-, hKept⟩ hRound
    dsimp only [nullCheckRound] at hRound
    split at hRound
    · split at hRound <;> cases hRound
    · cases hRound
      exact hKept

/-- **Dereferences stay guarded.** Crash traps do not return. Where every check that the pass
takes out of a loop is safe to take out of the function it is working on, the dereferences are
executed only in states in which they were executed before, so that a pointer that was never null
at a dereference still never is. -/
theorem nullChecks_stay_guarded (machine : Machine V M)
    (hTrap : ∀ callee arguments memory, isCrashTrap (some callee) = true →
      machine.call callee arguments memory = none)
    (function : IRFunction) (start : IRState V M) (hStart : start.pc = 0)
    (hHoists : ∀ current i check, Hoisting function.instructions current i →
      hoistAt current i = some check → CheckHoists machine current start i check) :
    ∃ place, DerefsKept machine start function.instructions
        (irNullCheckLicmPass function).instructions place ∧
      ∀ q c operand, function.instructions[q]? = some c → c.op.dereferences = true →
        Guarded machine function.instructions start operand q →
        Guarded machine (irNullCheckLicmPass function).instructions start operand (place q) := by
  obtain ⟨place, hKept⟩ := nullCheckLoop_derefsKept hTrap hStart hHoists
    (irNullCheckLicmPass_returns function 0)
  exact ⟨place, hKept, fun q c operand hc hDeref hGuarded => hKept.guarded hc hDeref hGuarded⟩

end Runs

/-- The environment of `cellMachine`, in which the crash traps do not return. -/
def trapMachine : Machine (BitVec 64) Cells :=
  { cellMachine fun _ => false with
    call := fun callee _ m => if isCrashTrap (some callee) then none else some (0, m) }

theorem trapMachine_trap (callee : String) (arguments : List (BitVec 64)) (memory : Cells)
    (h : isCrashTrap (some callee) = true) : trapMachine.call callee arguments memory = none :=
  if_pos h

/-- `while (n) { *p; n = n - 1; ... }`, with the check of `p`. -/
def readingLoop (rest : List IRInstruction) : IRFunction :=
  { name := "f", parameterNames := ["p", "n", "k"]
    instructions :=
      [{ op := .label, text := some "ir_while_0" },
       { op := .branchZero, lhs := .symbol "n", text := some "ir_while_end_0" },
       { op := .branchZero, lhs := .symbol "p", text := some "ir_trap_null_1" },
       { op := .jump, text := some "ir_nonnull_2" },
       { op := .label, text := some "ir_trap_null_1" },
       { op := .call, dest := .temp "c", text := some "mettle_crash_trap" },
       { op := .label, text := some "ir_nonnull_2" },
       { op := .load, dest := .temp "t", lhs := .symbol "p", rhs := .int 8 },
       { op := .binary, text := some "-", dest := .symbol "n", lhs := .symbol "n",
         rhs := .int 1 }] ++ rest ++
      [{ op := .jump, text := some "ir_while_0" }, { op := .label, text := some "ir_while_end_0" },
       { op := .return_, lhs := .symbol "n" }] }

def readingStart : IRState (BitVec 64) Cells :=
  cellStart (fun x => if x = "p" then some 8 else if x = "n" then some 2 else some 0) id

def readingCheck : NullCheck :=
  { symbol := "p", trap := "ir_trap_null_1", ok := "ir_nonnull_2", first := 2, jumpAt := 3
    trapAt := 4, callAt := 5, last := 6 }

def plainLoop : IRFunction := readingLoop []

theorem plainLoop_first : hoistAt plainLoop.instructions 0 = some readingCheck := by
  decide

theorem plainLoop_second (j : Nat) :
    hoistAt (hoistCheck plainLoop.instructions 0 readingCheck) j = none := by
  rcases Nat.lt_or_ge j 17 with hLt | hGe
  · revert j
    decide
  · have hNone : (hoistCheck plainLoop.instructions 0 readingCheck)[j]? = none :=
      getElem?_eq_none hGe
    rw [hoistAt, whileBackedge, hNone]
    rfl

theorem plainLoop_hoisting {current : List IRInstruction} {i : Nat}
    (h : Hoisting plainLoop.instructions current i) :
    (current = plainLoop.instructions ∧ i = 0) ∨
      current = hoistCheck plainLoop.instructions 0 readingCheck := by
  induction h with
  | start => exact Or.inl ⟨rfl, rfl⟩
  | skip _ hNone ih =>
    rcases ih with ⟨rfl, rfl⟩ | rfl
    · rw [plainLoop_first] at hNone
      cases hNone
    · exact Or.inr rfl
  | hoist _ hSome ih =>
    rcases ih with ⟨rfl, rfl⟩ | rfl
    · rw [plainLoop_first] at hSome
      cases hSome
      exact Or.inr rfl
    · rw [plainLoop_second] at hSome
      cases hSome

theorem plainLoop_hoists : CheckHoists trapMachine plainLoop.instructions readingStart 0
    readingCheck where
  trapAt := by decide
  okAt := by decide
  own := by
    have hAll : ∀ q < 12, ∀ c ∈ plainLoop.instructions[q]?, c.mayJump = true →
        c.text = some readingCheck.trap ∨ c.text = some readingCheck.ok →
        readingCheck.first ≤ q ∧ q ≤ readingCheck.last := by decide
    intro q c hc
    exact hAll q (List.getElem_of_getElem? hc).1 c hc
  again := by
    have hKeeps : ∀ c ∈ plainLoop.instructions,
        .symbol "p" ∉ c.writes ∧ c.op ≠ .inlineAsm := by decide
    have hSame : ∀ {path s}, trapMachine.Reaches plainLoop.instructions readingStart path s →
        trapMachine.value s (.symbol "p") = some 8 := by
      intro path s hReach
      induction hReach with
      | start => rfl
      | step _ hStep ih =>
        obtain ⟨c, hc, hExec⟩ := step_running hStep
        obtain ⟨hWrites, hAsm⟩ := hKeeps c (mem_of_getElem? hc)
        rw [execute_keeps hExec ⟨hWrites, hAsm, fun hRes => nomatch hRes⟩]
        exact ih
    intro path s hSafe _
    exact ⟨8, hSame hSafe.reaches, rfl⟩

theorem nullChecks_stay_guarded_plain : hoistAt plainLoop.instructions 0 = some readingCheck ∧
      ∃ place, DerefsKept trapMachine readingStart plainLoop.instructions
          (irNullCheckLicmPass plainLoop).instructions place ∧
        ∀ q c operand, plainLoop.instructions[q]? = some c → c.op.dereferences = true →
          Guarded trapMachine plainLoop.instructions readingStart operand q →
          Guarded trapMachine (irNullCheckLicmPass plainLoop).instructions readingStart operand
            (place q) := by
  refine ⟨plainLoop_first,
    nullChecks_stay_guarded trapMachine trapMachine_trap plainLoop readingStart rfl ?_⟩
  intro current i check hPass hSome
  rcases plainLoop_hoisting hPass with ⟨rfl, rfl⟩ | rfl
  · rw [plainLoop_first] at hSome
    cases hSome
    exact plainLoop_hoists
  · rw [plainLoop_second] at hSome
    cases hSome

/-- The first jump back is a `continue`; behind it the pointer is cleared. -/
def clearingLoop : IRFunction :=
  readingLoop [{ op := .branchZero, lhs := .symbol "k", text := some "ir_if_end_3" },
     { op := .jump, text := some "ir_while_0" },
     { op := .label, text := some "ir_if_end_3" },
     { op := .assign, dest := .symbol "p", lhs := .int 0 }]

def pointerAt (instructions : List IRInstruction) (n : Nat) : Option (Nat × Option (BitVec 64)) :=
  match trapMachine.run instructions n (.running readingStart) with
  | .running s => some (s.pc, trapMachine.value s (.symbol "p"))
  | _ => none

theorem pointerAt_of_reaches {path : List Nat} {s : IRState (BitVec 64) Cells}
    (hReach : trapMachine.Reaches code readingStart path s) :
    pointerAt code path.length = some (s.pc, trapMachine.value s (.symbol "p")) := by
  rw [pointerAt, hReach.run_eq]

theorem pointerAt_stops {n : Nat} (h : pointerAt code k = none) (hLe : k ≤ n)
    : pointerAt code n = none := by
  obtain ⟨m, rfl⟩ := Nat.exists_eq_add_of_le hLe
  rw [pointerAt] at h ⊢
  rw [run_add]
  cases hRun : trapMachine.run code k (.running readingStart) with
  | running s =>
    rw [hRun] at h
    cases h
  | returned value s => cases m <;> rfl
  | stuck s => cases m <;> rfl

/-- **The second round reads through null.** In the function as it was, the load at 7 is only
executed when `p` is not null; in the new function it stands at 12 and is executed with null. -/
theorem continue_skips_check :
    Guarded trapMachine clearingLoop.instructions readingStart (.symbol "p") 7 ∧
      (irNullCheckLicmPass clearingLoop).instructions[12]? = clearingLoop.instructions[7]? ∧
      ¬ Guarded trapMachine (irNullCheckLicmPass clearingLoop).instructions readingStart
        (.symbol "p") 12 := by
  refine ⟨?_, by decide, ?_⟩
  · -- the run ends in the trap
    have hAll : ∀ n < 16, ∀ seen ∈ pointerAt clearingLoop.instructions n,
        seen.1 = 7 → seen.2 = some 8 := by decide
    have hEnd : pointerAt clearingLoop.instructions 16 = none := by decide
    intro path s hReach hPc
    have hAt := pointerAt_of_reaches hReach
    rw [hPc] at hAt
    rcases Nat.lt_or_ge path.length 16 with hLt | hGe
    · exact ⟨8, hAll _ hLt _ hAt rfl, rfl⟩
    · rw [pointerAt_stops hEnd hGe] at hAt
      cases hAt
  · intro hGuarded
    have hAt : pointerAt (irNullCheckLicmPass clearingLoop).instructions 23 = some (12, some 0) := by
      decide
    cases hRun : trapMachine.run (irNullCheckLicmPass clearingLoop).instructions 23
        (.running readingStart) with
    | running s =>
      obtain ⟨path, hReach, -⟩ := reaches_of_run .start hRun
      rw [pointerAt, hRun] at hAt
      obtain ⟨hPc, hZero⟩ := Prod.mk.inj (some.inj hAt)
      obtain ⟨v, hv, hNot⟩ := hGuarded path s hReach hPc
      rw [hZero] at hv
      cases hv
      cases hNot
    | returned value s =>
      rw [pointerAt, hRun] at hAt
      cases hAt
    | stuck s =>
      rw [pointerAt, hRun] at hAt
      cases hAt

end Mettle.IR
