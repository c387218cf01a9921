import Mathlib.Data.List.Basic

/-!
# Mettle — runs of a state and exception action

Inversion of `StateT σ (Except ε)` actions that return: each lemma says what a
successful run of a combinator consists of. Rewriting with all of them turns
the run of a `do` block into the chain of its steps.

`Safe bad m s Q` says of a run of `m` from `s` that it does not fail with a bad
exception, and that `Q` holds where it returns; its rules follow the
combinators.
-/

namespace Mettle.Lib

universe u v

variable {σ α β : Type u} {ε : Type v}

variable {s : σ}
variable {f : α → StateT σ (Except ε) β}

theorem bind_run_ok {x : StateT σ (Except ε) α} {r : β × σ} :
    (x >>= f) s = .ok r ↔ ∃ a s', x s = .ok (a, s') ∧ f a s' = .ok r := by
  show (x s >>= fun p => f p.1 p.2) = .ok r ↔ _
  cases hx : x s with
  | error e => simp [bind, Except.bind]
  | ok p =>
    obtain ⟨a, s'⟩ := p
    simp [bind, Except.bind]

variable {r : α × σ}

theorem pure_run_ok {a : α} : (pure a : StateT σ (Except ε) α) s = .ok r ↔ (a, s) = r := by
  show Except.ok (a, s) = .ok r ↔ _
  simp

variable {e : ε}

theorem throw_run_ok : (throw e : StateT σ (Except ε) α) s = .ok r ↔ False := by
  show Except.error e = .ok r ↔ _
  simp

theorem get_run_ok {r : σ × σ} : (get : StateT σ (Except ε) σ) s = .ok r ↔ (s, s) = r := by
  show Except.ok (s, s) = .ok r ↔ _
  simp

theorem set_run_ok {t : σ} {r : PUnit × σ} :
    (set t : StateT σ (Except ε) PUnit) s = .ok r ↔ (⟨⟩, t) = r := by
  show Except.ok (_, t) = .ok r ↔ _
  simp

theorem modify_run_ok {f : σ → σ} {r : PUnit × σ} :
    (modify f : StateT σ (Except ε) PUnit) s = .ok r ↔ (⟨⟩, f s) = r := by
  show Except.ok (_, f s) = .ok r ↔ _
  simp

theorem lift_run_ok {x : Except ε α} :
    (liftM x : StateT σ (Except ε) α) s = .ok r ↔ ∃ a, x = .ok a ∧ (a, s) = r := by
  show (x >>= fun a => Except.ok (a, s)) = .ok r ↔ _
  cases x with
  | error e => simp [bind, Except.bind]
  | ok a => simp [bind, Except.bind]

-- ---
-- Safe runs
-- ---

/-- The run of `m` from `s` raises no bad exception, and where it returns the
postcondition holds. -/
def Safe (bad : ε → Prop) (m : StateT σ (Except ε) α) (s : σ) (Q : α → σ → Prop) : Prop :=
  match m s with
  | .ok (a, s') => Q a s'
  | .error e => ¬ bad e

variable {bad : ε → Prop} {m : StateT σ (Except ε) α} {s : σ} {Q Q' : α → σ → Prop}

theorem Safe.conseq (h : Safe bad m s Q) (hPost : ∀ a s', Q a s' → Q' a s') :
    Safe bad m s Q' := by
  unfold Safe at *
  split at h
  · exact hPost _ _ h
  · exact h

theorem Safe.bind {R : β → σ → Prop} (h : Safe bad m s Q)
    (hNext : ∀ a s', Q a s' → Safe bad (f a) s' R) : Safe bad (m >>= f) s R := by
  have hRun : (m >>= f) s = (m s >>= fun p => f p.1 p.2) := rfl
  unfold Safe at *
  cases hm : m s with
  | error e =>
    rw [hm] at h
    rw [hRun, hm]
    exact h
  | ok p =>
    rw [hm] at h
    rw [hRun, hm]
    exact hNext p.1 p.2 h

theorem Safe.pure {a : α} (h : Q a s) : Safe bad (Pure.pure a : StateT σ (Except ε) α) s Q := h

theorem Safe.throw (h : ¬ bad e) : Safe bad (MonadExcept.throw e : StateT σ (Except ε) α) s Q := h

theorem Safe.getBind {f : σ → StateT σ (Except ε) α} (h : Safe bad (f s) s Q) :
    Safe bad (MonadState.get >>= f) s Q := h

theorem Safe.set {t : σ} {Q : PUnit → σ → Prop} (h : Q ⟨⟩ t) :
    Safe bad (MonadStateOf.set t : StateT σ (Except ε) PUnit) s Q := h

theorem Safe.modify {f : σ → σ} {Q : PUnit → σ → Prop} (h : Q ⟨⟩ (f s)) :
    Safe bad (modify f : StateT σ (Except ε) PUnit) s Q := h

theorem Safe.not_bad (h : Safe bad m s Q) (hRun : m s = .error e) : ¬ bad e := by
  unfold Safe at h
  rw [hRun] at h
  exact h

end Mettle.Lib
