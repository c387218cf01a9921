import Mathlib.Algebra.Order.Monoid.Unbundled.MinMax
import Mathlib.Data.List.Basic
import Mathlib.Order.Bounds.Basic

/-!
# Mettle — edit distance

An edit puts a letter into a word, takes one out or replaces one, at any place. `distance` is the
recursion over the first letters, and `isLeast_distance` says that it is the least number of edits
between two words. `table` is its value at two prefixes, which a dynamic program fills in.
-/

namespace Mettle.Lib.EditDistance

open List

variable {α : Type*}

-- ---
-- Edits
-- ---

inductive Edit : List α → List α → Prop
  | insertion (front : List α) (x : α) (rest : List α) : Edit (front ++ rest) (front ++ x :: rest)
  | deletion (front : List α) (x : α) (rest : List α) : Edit (front ++ x :: rest) (front ++ rest)
  | substitution (front : List α) (x y : α) (rest : List α) :
    Edit (front ++ x :: rest) (front ++ y :: rest)

/-- So many edits, one after the other. -/
inductive Edits : Nat → List α → List α → Prop
  | none (word : List α) : Edits 0 word word
  | more {n : Nat} {first second last : List α} (h : Edit first second)
    (rest : Edits n second last) : Edits (n + 1) first last

variable {first second : List α} {n : Nat}

theorem Edit.cons (h : Edit first second) (x : α) : Edit (x :: first) (x :: second) := by
  cases h with
  | insertion front y rest => exact .insertion (x :: front) y rest
  | deletion front y rest => exact .deletion (x :: front) y rest
  | substitution front y z rest => exact .substitution (x :: front) y z rest

theorem Edit.reverse (h : Edit first second) : Edit first.reverse second.reverse := by
  cases h with
  | insertion front x rest => simpa using Edit.insertion rest.reverse x front.reverse
  | deletion front x rest => simpa using Edit.deletion rest.reverse x front.reverse
  | substitution front x y rest => simpa using Edit.substitution rest.reverse x y front.reverse

theorem Edits.cons (h : Edits n first second) (x : α) : Edits n (x :: first) (x :: second) := by
  induction h with
  | none word => exact .none _
  | more hEdit _ ih => exact .more (hEdit.cons x) ih

theorem Edits.reverse (h : Edits n first second) : Edits n first.reverse second.reverse := by
  induction h with
  | none word => exact .none _
  | more hEdit _ ih => exact .more hEdit.reverse ih

theorem Edit.symm (h : Edit first second) : Edit second first := by
  cases h with
  | insertion front x rest => exact .deletion front x rest
  | deletion front x rest => exact .insertion front x rest
  | substitution front x y rest => exact .substitution front y x rest

theorem Edits.trans {m : Nat} {last : List α} (h : Edits m first second)
    (h' : Edits n second last) : Edits (m + n) first last := by
  induction h with
  | none word => rwa [Nat.zero_add]
  | more hEdit _ ih =>
    rw [Nat.add_right_comm]
    exact .more hEdit (ih h')

theorem Edits.symm (h : Edits n first second) : Edits n second first := by
  induction h with
  | none word => exact .none word
  | more hEdit _ ih => exact ih.trans (.more hEdit.symm (.none _))

variable (word : List α)

theorem edits_insert_all : Edits word.length [] word := by
  induction word with
  | nil => exact .none _
  | cons x word ih => exact .more (.insertion [] x []) (ih.cons x)

theorem edits_delete_all : Edits word.length word [] := by
  induction word with
  | nil => exact .none _
  | cons x word ih => exact .more (.deletion [] x word) ih

-- ---
-- The recursion
-- ---

variable [DecidableEq α]

def distance : List α → List α → Nat
  | [], second => second.length
  | x :: first, [] => first.length + 1
  | x :: first, y :: second =>
    min (min (distance first (y :: second) + 1) (distance (x :: first) second + 1))
      (distance first second + if x = y then 0 else 1)
termination_by first second => first.length + second.length

theorem distance_nil_left : distance [] word = word.length := by rw [distance]

theorem distance_nil_right : distance word [] = word.length := by
  cases word with
  | nil => rw [distance]
  | cons x word => rw [distance, length_cons]

theorem distance_self : distance word word = 0 := by
  induction word with
  | nil => rw [distance_nil_left, length_nil]
  | cons x word ih => rw [distance, ih, if_pos rfl, Nat.add_zero, Nat.min_zero]

theorem edits_distance (first second : List α) : Edits (distance first second) first second := by
  fun_induction distance first second with
  | case1 second => exact edits_insert_all second
  | case2 x first => exact edits_delete_all (x :: first)
  | case3 x first y second ihDelete ihInsert ihKeep =>
    have hDelete := Edits.more (.deletion [] x first) ihDelete
    have hInsert := Edits.more (.insertion [] y (x :: first)) (ihInsert.cons y)
    refine min_rec' (Edits · (x :: first) (y :: second)) (min_rec' (Edits · _ _) hDelete hInsert) ?_
    split
    · rename_i hSame
      exact hSame ▸ ihKeep.cons x
    · exact .more (.substitution [] x y first) (ihKeep.cons y)

-- ---
-- An edit changes the distance by at most one
-- ---

variable (x y : α) (first second)

theorem distance_le_cons_right : distance first (y :: second) ≤ distance first second + 1 := by
  cases first with
  | nil => rw [distance_nil_left, distance_nil_left, length_cons]
  | cons x first =>
    rw [distance]
    omega

theorem distance_cons_le : distance (x :: first) second ≤ distance first second + 1 := by
  cases second with
  | nil => rw [distance_nil_right, distance_nil_right, length_cons]
  | cons y second =>
    rw [distance]
    omega

theorem distance_le_cons : distance first second ≤ distance (x :: first) second + 1 := by
  induction second with
  | nil =>
    rw [distance_nil_right, distance_nil_right, length_cons]
    omega
  | cons y second ih =>
    have hRight := distance_le_cons_right first second y
    rw [distance.eq_3]
    omega

theorem distance_replaced_le : distance (x :: first) second ≤ distance (y :: first) second + 1 := by
  induction second with
  | nil =>
    rw [distance_nil_right, distance_nil_right, length_cons, length_cons]
    omega
  | cons z second ih =>
    rw [distance, distance]
    split <;> split <;> omega

variable {first} {second}
variable {other : List α}

theorem distance_cons_le_cons (h : ∀ second, distance first second ≤ distance other second + 1)
    (second : List α) : distance (x :: first) second ≤ distance (x :: other) second + 1 := by
  induction second with
  | nil =>
    have hNil := h []
    rw [distance_nil_right, distance_nil_right] at hNil ⊢
    simpa using hNil
  | cons y second ih =>
    have hLong := h (y :: second)
    have hShort := h second
    rw [distance, distance]
    split <;> omega

theorem distance_append_le (front : List α)
    (h : ∀ second, distance first second ≤ distance other second + 1) (second : List α) :
    distance (front ++ first) second ≤ distance (front ++ other) second + 1 := by
  induction front generalizing second with
  | nil => exact h second
  | cons x front ih => exact distance_cons_le_cons x ih second

theorem Edit.distance_le (h : Edit first other) (second : List α) :
    distance first second ≤ distance other second + 1 := by
  cases h with
  | insertion front x rest =>
    exact distance_append_le front (fun second => distance_le_cons rest second x) second
  | deletion front x rest =>
    exact distance_append_le front (fun second => distance_cons_le rest second x) second
  | substitution front x y rest =>
    exact distance_append_le front (fun second => distance_replaced_le rest second x y) second

theorem Edits.distance_le (h : Edits n first second) : distance first second ≤ n := by
  induction h with
  | none word => rw [distance_self]
  | more hEdit _ ih =>
    have hStep := hEdit.distance_le
    exact (hStep _).trans (Nat.succ_le_succ ih)

/-- **The recursion is the edit distance.** -/
theorem isLeast_distance (first second : List α) :
    IsLeast {n | Edits n first second} (distance first second) :=
  ⟨edits_distance first second, fun _ h => h.distance_le⟩

theorem distance_eq_zero_iff {first second : List α} :
    distance first second = 0 ↔ first = second := by
  constructor
  · intro hZero
    have hEdits := edits_distance first second
    rw [hZero] at hEdits
    cases hEdits
    rfl
  · rintro rfl
    exact distance_self _

theorem distance_comm (first second : List α) : distance first second = distance second first :=
  Nat.le_antisymm (edits_distance second first).symm.distance_le
    (edits_distance first second).symm.distance_le

theorem distance_triangle (first second last : List α) :
    distance first last ≤ distance first second + distance second last :=
  ((edits_distance first second).trans (edits_distance second last)).distance_le

theorem distance_reverse (first second : List α) :
    distance first.reverse second.reverse = distance first second := by
  refine Nat.le_antisymm (edits_distance first second).reverse.distance_le ?_
  have hBack := (edits_distance first.reverse second.reverse).reverse
  rw [reverse_reverse, reverse_reverse] at hBack
  exact hBack.distance_le

-- ---
-- Prefixes
-- ---

/-- The distance of two prefixes. -/
def table (first second : List α) (i j : Nat) : Nat :=
  distance (first.take i).reverse (second.take j).reverse

theorem table_zero_left {j : Nat} (hj : j ≤ second.length) : table first second 0 j = j := by
  rw [table, take_zero, reverse_nil, distance_nil_left, length_reverse, length_take_of_le hj]

theorem table_zero_right {i : Nat} (hi : i ≤ first.length) : table first second i 0 = i := by
  rw [table, take_zero, reverse_nil, distance_nil_right, length_reverse, length_take_of_le hi]

theorem table_succ {i j : Nat} (hi : i < first.length) (hj : j < second.length) :
    table first second (i + 1) (j + 1) =
      min (min (table first second i (j + 1) + 1) (table first second (i + 1) j + 1))
        (table first second i j + if first[i] = second[j] then 0 else 1) := by
  simp only [table, take_add_one, getElem?_eq_getElem hi, getElem?_eq_getElem hj,
    Option.toList_some, reverse_append, reverse_singleton, singleton_append,
    distance.eq_3]

theorem table_length : table first second first.length second.length = distance first second := by
  rw [table, take_length, take_length, distance_reverse]

end Mettle.Lib.EditDistance
