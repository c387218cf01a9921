import Mathlib.Data.List.Basic
import Mathlib.Order.Bounds.Basic

/-!
# Mettle — loops

A loop whose rounds are counted (`runLoop`): it returns if each round makes its state smaller, and
what every round keeps holds where it returns.

The pass over an array that carries a state and may replace the element it looks at: `mapAccum`.
The state in front of element `p` is a fold over the first `p` elements (`stateAt`), so a fact about
the pass at `p` is a fact about a prefix.

What a loop comes to that runs a round as long as a condition holds, over any states
(`WhileEnds`). A loop may do two rounds at once in some states, and then does not look at the
condition in between. That is exact if and only if the condition holds there whenever it matters.

And the elements that a relation leads to from a set of first ones, in any number of steps
(`Reached`): the least set that contains the first ones and is closed under the relation.
-/

namespace Mettle.Lib

section Loops

variable {σ τ ρ α β : Type*}

-- ---
-- Rounds
-- ---

/-- A loop: a round goes on with a state or ends with a result. `none` if the rounds run out. -/
def runLoop (round : σ → σ ⊕ ρ) : Nat → σ → Option ρ
  | 0, _ => none
  | rounds + 1, s =>
    match round s with
    | .inl next => runLoop round rounds next
    | .inr result => some result

variable {round : σ → σ ⊕ ρ}

/-- **Smaller states end a loop**, whatever more rounds it is given. -/
theorem runLoop_returns (size : σ → Nat)
    (hLess : ∀ s next, round s = .inl next → size next < size s) (s : σ) :
    ∃ result, ∀ extra, runLoop round (size s + 1 + extra) s = some result := by
  induction hSize : size s using Nat.strongRecOn generalizing s with
  | _ n ih =>
    cases hRound : round s with
    | inr result =>
      refine ⟨result, fun extra => ?_⟩
      rw [Nat.add_right_comm, runLoop, hRound]
    | inl next =>
      have hNext := hLess s next hRound
      obtain ⟨result, hResult⟩ := ih (size next) (hSize ▸ hNext) next rfl
      refine ⟨result, fun extra => ?_⟩
      rw [Nat.add_right_comm, runLoop, hRound]
      have hRounds : n + extra = size next + 1 + (n - (size next + 1) + extra) := by omega
      rw [hRounds]
      exact hResult _

/-- **Invariants**: what a round keeps holds in the state that it ends in. -/
theorem runLoop_invariant (Inv : σ → Prop) (Post : ρ → Prop)
    (hKeep : ∀ s next, Inv s → round s = .inl next → Inv next)
    (hEnd : ∀ s result, Inv s → round s = .inr result → Post result)
    {rounds : Nat} {s : σ} {result : ρ} (h : Inv s) (hRun : runLoop round rounds s = some result) :
    Post result := by
  induction rounds generalizing s with
  | zero => cases hRun
  | succ rounds ih =>
    rw [runLoop] at hRun
    cases hRound : round s with
    | inl next =>
      rw [hRound] at hRun
      exact ih (hKeep s next h hRound) hRun
    | inr last =>
      rw [hRound] at hRun
      exact Option.some.inj hRun ▸ hEnd s last h hRound

-- ---
-- Rewriting a list in place
-- ---

/-- The pass: the elements it leaves behind. -/
def mapAccum (f : σ → α → σ × β) : σ → List α → List β
  | _, [] => []
  | s, a :: rest => (f s a).2 :: mapAccum f (f s a).1 rest

/-- The state in front of element `p`. -/
def stateAt (f : σ → α → σ) (s : σ) (l : List α) (p : Nat) : σ := (l.take p).foldl f s

theorem stateAt_succ {f : σ → α → σ} {s : σ} {l : List α} {p : Nat} {a : α}
    (h : l[p]? = some a) : stateAt f s l (p + 1) = f (stateAt f s l p) a := by
  rw [stateAt, List.take_add_one, h, List.foldl_append]
  rfl

theorem getElem?_mapAccum (f : σ → α → σ × β) (s : σ) (l : List α) (p : Nat) :
    (mapAccum f s l)[p]? = l[p]?.map fun a => (f (stateAt (fun s a => (f s a).1) s l p) a).2 := by
  induction l generalizing s p with
  | nil => rfl
  | cons a rest ih =>
    cases p with
    | zero => rfl
    | succ p => exact ih (f s a).1 p

theorem stateAt_invariant {f : σ → α → σ} {s : σ} {l : List α} (Inv : Nat → σ → Prop)
    (hStart : Inv 0 s)
    (hStep : ∀ (p : Nat) (a : α) (t : σ), l[p]? = some a → Inv p t → Inv (p + 1) (f t a))
    {p : Nat} (hp : p ≤ l.length) : Inv p (stateAt f s l p) := by
  induction p with
  | zero => exact hStart
  | succ p ih =>
    have hGet := List.getElem?_eq_getElem (show p < l.length from hp)
    rw [stateAt_succ hGet]
    exact hStep p _ _ hGet (ih (Nat.le_of_lt hp))

end Loops

-- ---
-- Loops that skip a test
-- ---

section WhileLoop

variable {σ : Type*}

/-- The loop that runs `round` as long as `p` holds ends, and where. -/
inductive WhileEnds (p : σ → Prop) (round : σ → σ) : σ → σ → Prop
  | done {s : σ} (hDone : ¬ p s) : WhileEnds p round s s
  | again {s t : σ} (hOn : p s) (hRest : WhileEnds p round (round s) t) : WhileEnds p round s t

section WhileEnds

variable {p : σ → Prop} {round : σ → σ} {s t u : σ}

theorem WhileEnds.again_iff (hOn : p s) : WhileEnds p round s t ↔ WhileEnds p round (round s) t := by
  constructor
  · intro h
    cases h with
    | done hDone => exact absurd hOn hDone
    | again _ hRest => exact hRest
  · exact .again hOn

theorem WhileEnds.done_iff (hDone : ¬ p s) : WhileEnds p round s t ↔ t = s := by
  constructor
  · intro h
    cases h with
    | done => rfl
    | again hOn => exact absurd hOn hDone
  · rintro rfl
    exact .done hDone

end WhileEnds

-- ---
-- Two rounds at once
-- ---

/-- Two rounds in the states of `twice`, and one in all others. -/
def skipping (twice : σ → Prop) [DecidablePred twice] (round : σ → σ) (s : σ) : σ :=
  if twice s then round (round s) else round s

/-- Wherever the loop comes to and does two rounds at once, the condition holds between them. -/
def HoldsBetween (p twice : σ → Prop) (round : σ → σ) (s : σ) : Prop :=
  ∀ k, (∀ j ≤ k, p (round^[j] s)) → twice (round^[k] s) → p (round^[k + 1] s)

/-- The two loops come to the same end. -/
def SameEnds (p twice : σ → Prop) [DecidablePred twice] (round : σ → σ) (s : σ) : Prop :=
  ∀ t, WhileEnds p round s t ↔ WhileEnds p (skipping twice round) s t

variable {p twice : σ → Prop} [DecidablePred twice] {round : σ → σ} {s t : σ}

omit [DecidablePred twice] in
theorem HoldsBetween.next (h : HoldsBetween p twice round s) (hOn : p s) :
    HoldsBetween p twice round (round s) := by
  intro k hAll hTwice
  refine h (k + 1) ?_ hTwice
  intro j hj
  cases j with
  | zero => exact hOn
  | succ j => exact hAll j (by omega)

theorem WhileEnds.skips (h : WhileEnds p round s t) (hBetween : HoldsBetween p twice round s) :
    WhileEnds p (skipping twice round) s t ∧
      (p s → WhileEnds p (skipping twice round) (round s) t) := by
  induction h with
  | done hDone => exact ⟨.done hDone, fun hOn => absurd hOn hDone⟩
  | @again s t hOn _ ih =>
    obtain ⟨hNext, hAfter⟩ := ih (hBetween.next hOn)
    refine ⟨.again hOn ?_, fun _ => hNext⟩
    unfold skipping
    split
    · rename_i hTwice
      refine hAfter (hBetween 0 (fun j hj => ?_) hTwice)
      obtain rfl := Nat.le_zero.mp hj
      exact hOn
    · exact hNext

theorem WhileEnds.of_skips (h : WhileEnds p (skipping twice round) s t)
    (hBetween : HoldsBetween p twice round s) : WhileEnds p round s t := by
  induction h with
  | done hDone => exact .done hDone
  | @again s t hOn _ ih =>
    unfold skipping at ih
    split at ih
    · rename_i hTwice
      have hMid : p (round s) := hBetween 0 (fun j hj => Nat.le_zero.mp hj ▸ hOn) hTwice
      exact .again hOn (.again hMid (ih ((hBetween.next hOn).next hMid)))
    · exact .again hOn (ih (hBetween.next hOn))

theorem SameEnds.skip (h : SameEnds p twice round s) (hOn : p s)
    (hMid : twice s → p (round s)) : SameEnds p twice round (skipping twice round s) := by
  intro t
  have hSkip : WhileEnds p (skipping twice round) s t ↔
      WhileEnds p (skipping twice round) (skipping twice round s) t := WhileEnds.again_iff hOn
  have hStep : WhileEnds p round (round s) t ↔ WhileEnds p round (skipping twice round s) t := by
    unfold skipping
    split
    · rename_i hTwice
      exact WhileEnds.again_iff (hMid hTwice)
    · exact Iff.rfl
  rw [← hSkip, ← h t, WhileEnds.again_iff hOn, hStep]

/-- **A skipped test.** -/
theorem skipping_iff (hApart : ∀ s, twice s → ¬ twice (round s))
    (hSettled : ∀ s, twice s → ¬ p (round s) → ¬ p (round (round s)))
    (hMoves : ∀ s, round (round s) ≠ round s) :
    SameEnds p twice round s ↔ HoldsBetween p twice round s := by
  constructor
  · intro hSame k
    induction k using Nat.strongRecOn generalizing s with
    | ind k ih =>
      intro hAll hTwice
      have hOn : p s := hAll 0 (Nat.zero_le k)
      by_cases hFirst : twice s
      · match k with
        | 0 =>
          by_contra hOff
          have hEnd : WhileEnds p round s (round s) := .again hOn (.done hOff)
          have hEnd' := (hSame _).mp hEnd
          rw [WhileEnds.again_iff hOn, skipping, if_pos hFirst,
            WhileEnds.done_iff (hSettled s hFirst hOff)] at hEnd'
          exact hMoves s hEnd'.symm
        | 1 => exact absurd hTwice (hApart s hFirst)
        | k + 2 =>
          have hNext := hSame.skip hOn fun _ => hAll 1 (by omega)
          rw [skipping, if_pos hFirst] at hNext
          exact ih k (by omega) hNext (fun j hj => hAll (j + 2) (by omega)) hTwice
      · match k with
        | 0 => exact absurd hTwice hFirst
        | k + 1 =>
          have hNext := hSame.skip hOn fun h => absurd h hFirst
          rw [skipping, if_neg hFirst] at hNext
          exact ih k (by omega) hNext (fun j hj => hAll (j + 1) (by omega)) hTwice
  · intro hBetween t
    exact ⟨fun h => (h.skips hBetween).1, fun h => h.of_skips hBetween⟩

end WhileLoop

-- ---
-- What is reached from a set
-- ---

variable {α : Type*}

/-- What `next` leads to from `first`. -/
def Reached (first : Set α) (next : α → α → Prop) : Set α :=
  {b | ∃ a ∈ first, Relation.ReflTransGen next a b}

/-- The sets that contain `first` and whatever `next` leads to from them. -/
def ClosedAbove (first : Set α) (next : α → α → Prop) : Set (Set α) :=
  {s | first ⊆ s ∧ ∀ a ∈ s, ∀ b, next a b → b ∈ s}

variable {first first' : Set α} {next next' : α → α → Prop}

theorem subset_reached : first ⊆ Reached first next :=
  fun a ha => ⟨a, ha, .refl⟩

theorem reached_step {a b : α} (h : a ∈ Reached first next) (hNext : next a b) :
    b ∈ Reached first next := by
  obtain ⟨c, hc, hPath⟩ := h
  exact ⟨c, hc, hPath.tail hNext⟩

theorem reached_subset {s : Set α} (h : s ∈ ClosedAbove first next) : Reached first next ⊆ s := by
  rintro b ⟨a, ha, hPath⟩
  induction hPath with
  | refl => exact h.1 ha
  | tail _ hNext ih => exact h.2 _ ih _ hNext

theorem reached_mem_closedAbove : Reached first next ∈ ClosedAbove first next :=
  ⟨subset_reached, fun _ ha _ hNext => reached_step ha hNext⟩

/-- **Least closed set.** -/
theorem isLeast_iff {s : Set α} : IsLeast (ClosedAbove first next) s ↔ s = Reached first next := by
  have hLeast : IsLeast (ClosedAbove first next) (Reached first next) :=
    ⟨reached_mem_closedAbove, fun _ h => reached_subset h⟩
  constructor
  · intro h
    exact h.unique hLeast
  · rintro rfl
    exact hLeast

theorem reached_mono (hFirst : first ⊆ Reached first' next')
    (hNext : ∀ a b, next a b → next' a b) : Reached first next ⊆ Reached first' next' :=
  reached_subset ⟨hFirst, fun _ ha _ h => reached_step ha (hNext _ _ h)⟩

end Mettle.Lib
