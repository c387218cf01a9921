import Mathlib.Data.List.Basic

/-!
# Mettle — attempts: actions that may give up

A recursive-descent function changes its state also when it gives up (returns
`NULL`). `Attempt σ α` is such an action: it ends in a state, with a value or
without one. An action that recurses by fuel may also run out of it, and then
has no end at all.

`Within R m` says that every end of `m` is related to its start by `R`; for a
reflexive and transitive `R` the rules below follow the combinators.
-/

namespace Mettle.Lib

universe u v w

/-- An action on `σ`: out of fuel, or the end state with the value or with
nothing. -/
def Attempt (σ : Type u) (α : Type v) : Type (max u v) := σ → Option (Option α × σ)

namespace Attempt

variable {σ : Type u} {α : Type v} {β : Type w}

/-- Return a value. -/
def ret (a : α) : Attempt σ α := fun s => some (some a, s)

/-- Give up, in the state reached. -/
def null : Attempt σ α := fun s => some (none, s)

/-- Out of fuel. -/
def stuck : Attempt σ α := fun _ => none

/-- Go on with the value; giving up is final. -/
def andThen (m : Attempt σ α) (f : α → Attempt σ β) : Attempt σ β := fun s =>
  match m s with
  | none => none
  | some (none, s') => some (none, s')
  | some (some a, s') => f a s'

/-- Go on where `m` gave up, from the state it reached. -/
def orElse (m h : Attempt σ α) : Attempt σ α := fun s =>
  match m s with
  | some (none, s') => h s'
  | r => r

/-- Whether `m` gives up, as a value. -/
def attempt (m : Attempt σ α) : Attempt σ (Option α) := fun s =>
  match m s with
  | none => none
  | some (r, s') => some (some r, s')

/-- The state. -/
def read : Attempt σ σ := fun s => some (some s, s)

/-- Change the state. -/
def update (f : σ → σ) : Attempt σ PUnit := fun s => some (some ⟨⟩, f s)

instance : Monad (Attempt.{u, v} σ) where
  pure := ret
  bind := andThen

variable {m : Attempt σ α} {h : Attempt σ α} {s t : σ} {a : α} {b : β}

@[simp] theorem read_run (s : σ) : (read : Attempt σ σ) s = some (some s, s) := rfl

@[simp] theorem update_run (f : σ → σ) (s : σ) :
    (update f : Attempt σ PUnit) s = some (some ⟨⟩, f s) := rfl

variable {γ : Type v}

theorem bind_run (m : Attempt σ γ) (f : γ → Attempt σ α) (s : σ) : (m >>= f) s = match m s with
      | none => none
      | some (none, s') => some (none, s')
      | some (some a, s') => f a s' := rfl

theorem orElse_run (m h : Attempt σ α) (s : σ) : m.orElse h s = match m s with
      | some (none, s') => h s'
      | r => r := rfl

variable {f : γ → Attempt σ α}

theorem bind_of_some {m : Attempt σ γ} {c : γ} (hRun : m s = some (some c, t)) :
    (m >>= f) s = f c t := by
  rw [bind_run, hRun]

theorem bind_of_null {m : Attempt σ γ} (hRun : m s = some (none, t)) :
    (m >>= f) s = some (none, t) := by
  rw [bind_run, hRun]

theorem orElse_of_some (hRun : m s = some (some a, t)) : m.orElse h s = some (some a, t) := by
  rw [orElse_run, hRun]

theorem orElse_of_null (hRun : m s = some (none, t)) : m.orElse h s = h t := by
  rw [orElse_run, hRun]

theorem bind_some {m : Attempt σ γ} {u : σ} (hRun : (m >>= f) s = some (some a, u)) :
    ∃ c t, m s = some (some c, t) ∧ f c t = some (some a, u) := by
  rw [bind_run] at hRun
  split at hRun
  · cases hRun
  · cases hRun
  · exact ⟨_, _, by assumption, hRun⟩

theorem bind_null {m : Attempt σ γ} {u : σ} (hRun : (m >>= f) s = some (none, u)) :
    m s = some (none, u) ∨ ∃ c t, m s = some (some c, t) ∧ f c t = some (none, u) := by
  rw [bind_run] at hRun
  split at hRun
  · cases hRun
  · cases hRun
    exact .inl (by assumption)
  · exact .inr ⟨_, _, by assumption, hRun⟩

-- ---
-- Relations between the two ends
-- ---

/-- Every end of `m` is related to its start. -/
def Within (R : σ → σ → Prop) (m : Attempt σ α) : Prop :=
  ∀ ⦃s r t⦄, m s = some (r, t) → R s t

variable {R : σ → σ → Prop}

theorem Within.pure (hRefl : ∀ s, R s s) (a : α) : Within R (Pure.pure a : Attempt σ α) := by
  intro s r t hRun
  cases hRun
  exact hRefl s

theorem Within.null (hRefl : ∀ s, R s s) : Within R (null : Attempt σ α) := by
  intro s r t hRun
  cases hRun
  exact hRefl s

theorem Within.stuck : Within R (stuck : Attempt σ α) := by
  intro s r t hRun
  cases hRun

theorem Within.update {f : σ → σ} (hStep : ∀ s, R s (f s)) : Within R (update f) := by
  intro s r t hRun
  cases hRun
  exact hStep s

theorem Within.bind (hTrans : ∀ s t u, R s t → R t u → R s u) {m : Attempt σ γ}
    (hFirst : Within R m) (hNext : ∀ c, Within R (f c)) : Within R (m >>= f) := by
  intro s r u hRun
  rw [bind_run] at hRun
  split at hRun
  · cases hRun
  · next s' hm =>
    cases hRun
    exact hFirst hm
  · next c s' hm => exact hTrans _ _ _ (hFirst hm) (hNext c hRun)

theorem Within.orElse (hTrans : ∀ s t u, R s t → R t u → R s u) (hFirst : Within R m)
    (hNext : Within R h) : Within R (m.orElse h) := by
  intro s r u hRun
  rw [orElse_run] at hRun
  split at hRun
  · next s' hm => exact hTrans _ _ _ (hFirst hm) (hNext hRun)
  · exact hFirst hRun

theorem Within.attempt (hFirst : Within R m) : Within R m.attempt := by
  intro s r t hRun
  unfold Attempt.attempt at hRun
  split at hRun
  · cases hRun
  · next r' s' hm =>
    cases hRun
    exact hFirst hm

theorem Within.ite {c : Prop} [Decidable c] {m' : Attempt σ α} (hThen : Within R m)
    (hElse : Within R m') : Within R (if c then m else m') := by
  split
  · exact hThen
  · exact hElse

-- ---
-- From one state
-- ---

/-- Every end of `m` from `s` is in `P`. -/
def EndsIn (P : σ → Prop) (m : Attempt σ α) (s : σ) : Prop :=
  ∀ ⦃r t⦄, m s = some (r, t) → P t

variable {P : σ → Prop}

theorem Within.endsIn (hTrans : ∀ s t u, R s t → R t u → R s u) (hWithin : Within R m)
    (hFrom : R t s) : EndsIn (R t) m s := fun _ _ hRun => hTrans _ _ _ hFrom (hWithin hRun)

theorem EndsIn.bind {m : Attempt σ γ} (hFirst : EndsIn P m s)
    (hNext : ∀ c t, P t → EndsIn P (f c) t) :
    EndsIn P (m >>= f) s := by
  intro r u hRun
  rw [bind_run] at hRun
  split at hRun
  · cases hRun
  · next s' hm =>
    cases hRun
    exact hFirst hm
  · next c s' hm => exact hNext c s' (hFirst hm) hRun

theorem EndsIn.orElse (hFirst : EndsIn P m s) (hNext : ∀ t, P t → EndsIn P h t) :
    EndsIn P (m.orElse h) s := by
  intro r u hRun
  rw [orElse_run] at hRun
  split at hRun
  · next s' hm => exact hNext s' (hFirst hm) hRun
  · exact hFirst hRun

end Attempt

end Mettle.Lib
