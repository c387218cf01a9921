import Mathlib.Data.List.Induction
import Mathlib.Data.List.Sort

/-!
# Mettle — insertion and runs

Insertion sort as an array is sorted in place: a new value goes behind the last one of the sorted
part that is not greater, and the greater ones move one place on. Values are compared by a key.

And the maximal runs of a list without a gap: the pieces between the gaps that are not empty. They
are counted where they begin, so that a list can be taken in chunks, with one bit from each chunk to
the next.
-/

namespace Mettle.Lib

-- ---
-- Insertion from the back
-- ---

section Insertion

variable {α β : Type*} [LinearOrder β] (key : α → β)

/-- The value goes behind the last one that is not greater. -/
def insertBack (x : α) (sorted : List α) : List α :=
  (sorted.reverse.orderedInsert (fun a b => key b ≤ key a) x).reverse

/-- All values, one after the other. -/
def insertAll (values : List α) : List α :=
  values.foldl (fun sorted x => insertBack key x sorted) []

variable {key} {x a : α} {sorted values : List α}

theorem insertBack_stop (h : key a ≤ key x) :
    insertBack key x (sorted ++ [a]) = sorted ++ [a, x] := by
  rw [insertBack, List.reverse_concat, List.orderedInsert_cons, if_pos h]
  simp

theorem insertBack_shift (h : key x < key a) :
    insertBack key x (sorted ++ [a]) = insertBack key x sorted ++ [a] := by
  rw [insertBack, List.reverse_concat, List.orderedInsert_cons,
    if_neg (not_le.mpr h), List.reverse_cons]
  rfl

theorem insertBack_perm : (insertBack key x sorted).Perm (x :: sorted) :=
  (List.reverse_perm _).trans
    ((List.perm_orderedInsert _ x _).trans ((List.reverse_perm sorted).cons x))

theorem insertBack_sorted (h : sorted.Pairwise (key · ≤ key ·)) :
    (insertBack key x sorted).Pairwise (key · ≤ key ·) := by
  exact List.pairwise_reverse.mpr (List.Pairwise.orderedInsert x _ (List.pairwise_reverse.mpr h))

@[simp]
theorem insertAll_concat :
    insertAll key (values ++ [x]) = insertBack key x (insertAll key values) := by
  rw [insertAll, List.foldl_concat]
  rfl

theorem insertAll_perm : (insertAll key values).Perm values := by
  induction values using List.reverseRecOn with
  | nil => exact List.Perm.refl []
  | append_singleton values x ih =>
    rw [insertAll_concat]
    exact insertBack_perm.trans ((ih.cons x).trans (List.perm_append_singleton x values).symm)

theorem insertAll_sorted : (insertAll key values).Pairwise (key · ≤ key ·) := by
  induction values using List.reverseRecOn with
  | nil => exact List.Pairwise.nil
  | append_singleton values x ih =>
    rw [insertAll_concat]
    exact insertBack_sorted ih

end Insertion

-- ---
-- Maximal runs
-- ---

variable {α : Type*} (gap : α → Bool)

/-- The number of maximal runs. -/
def runs (values : List α) : Nat := (values.splitOnP gap).countP (!·.isEmpty)

/-- The number of runs that begin in the list, behind the inside of a run or not. -/
def runStarts : Bool → List α → Nat
  | _, [] => 0
  | inside, x :: values =>
    if gap x then runStarts false values
    else (if inside then 0 else 1) + runStarts true values

/-- Whether the end of the list is inside a run. -/
def endsInside : Bool → List α → Bool
  | inside, [] => inside
  | _, x :: values => endsInside (!gap x) values

variable {gap}

theorem runStarts_append (inside : Bool) (first second : List α) :
    runStarts gap inside (first ++ second) =
      runStarts gap inside first + runStarts gap (endsInside gap inside first) second := by
  induction first generalizing inside with
  | nil => simp [runStarts, endsInside]
  | cons x first ih =>
    rw [List.cons_append, runStarts, runStarts, endsInside]
    cases hGap : gap x
    · simp [ih, Nat.add_assoc]
    · simp [ih]

theorem endsInside_append (inside : Bool) (first second : List α) :
    endsInside gap inside (first ++ second) =
      endsInside gap (endsInside gap inside first) second := by
  induction first generalizing inside with
  | nil => rfl
  | cons x first ih => exact ih _

theorem runStarts_eq (values : List α) :
    runStarts gap false values = (values.splitOnP gap).countP (!·.isEmpty) ∧
      runStarts gap true values = (values.splitOnP gap).tail.countP (!·.isEmpty) := by
  induction values with
  | nil => simp [runStarts]
  | cons x values ih =>
    rw [runStarts, runStarts, List.splitOnP_cons_eq_if_modifyHead]
    obtain ⟨piece, pieces, hSplit⟩ := List.exists_cons_of_ne_nil (List.splitOnP_ne_nil gap values)
    rw [hSplit] at ih ⊢
    cases hGap : gap x
    · simp [ih.2, Nat.add_comm]
    · simp [ih.1]

/-- **A run begins once.** -/
theorem runStarts_eq_runs (values : List α) : runStarts gap false values = runs gap values :=
  (runStarts_eq values).1

theorem endsInside_range (inside : Bool) (f : Nat → α) (n : Nat) :
    endsInside gap inside ((List.range n).map f) =
      if n = 0 then inside else !gap (f (n - 1)) := by
  cases n with
  | zero => rfl
  | succ n => rw [List.range_succ, List.map_append, endsInside_append]; rfl

theorem runStarts_range (inside : Bool) (f : Nat → α) (n : Nat) :
    runStarts gap inside ((List.range n).map f) = (List.range n).countP fun i =>
      !gap (f i) && !(if i = 0 then inside else !gap (f (i - 1))) := by
  induction n with
  | zero => rfl
  | succ n ih =>
    rw [List.range_succ, List.map_append, runStarts_append, endsInside_range, ih,
      List.countP_append, List.countP_singleton]
    generalize (if n = 0 then inside else !gap (f (n - 1))) = before
    cases hGap : gap (f n) <;> cases before <;> simp [runStarts, hGap]

end Mettle.Lib
