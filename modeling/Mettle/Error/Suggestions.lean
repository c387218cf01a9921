import Mathlib.Algebra.Group.Nat.Defs
import Mathlib.Data.List.MinMax
import Mettle.Lib.EditDistance
import Mettle.Lexing.Lexer

/-!
# Mettle — suggestions for misspelled names

The edit distance of `error_reporter.c`, computed in one row, and the candidate it picks for a
name. Whether the row can be allocated is an argument; the copy of the name always is.
-/

namespace Mettle.Error

open Mettle.Lib Mettle.Lexing List

-- ---
-- The distance
-- ---

/-- The lower case of an ASCII letter. -/
def erLower (c : Char) : Char :=
  if 'A' ≤ c ∧ c ≤ 'Z' then Char.ofNat (c.toNat - 'A'.toNat + 'a'.toNat) else c

/-- `(size_t)-1`. -/
def sizeMax : Nat := 2 ^ 64 - 1

/-- The body of the inner loop, on the row and `prev_diag`. -/
def editCell (a b : Text) (i : Nat) (state : List Nat × Nat) (j : Nat) : List Nat × Nat :=
  let row := state.1
  let prev := row.getD j 0
  let cost := if (a[i - 1]?).map erLower = (b[j - 1]?).map erLower then 0 else 1
  let del := row.getD j 0 + 1
  let ins := row.getD (j - 1) 0 + 1
  let sub := state.2 + cost
  let best := if del < ins then del else ins
  let best := if sub < best then sub else best
  (row.set j best, prev)

/-- The body of the outer loop. -/
def editRow (a b : Text) (row : List Nat) (i : Nat) : List Nat :=
  ((List.range' 1 b.length).foldl (editCell a b i) (row.set 0 i, row.getD 0 0)).1

/-- The edit distance, kept in one row. -/
def errorReporterEditDistance (rowAllocated : Bool) (a b : Text) : Nat :=
  if a.length = 0 then b.length
  else if b.length = 0 then a.length
  else if !rowAllocated then sizeMax
  else ((List.range' 1 a.length).foldl (editRow a b) (List.range (b.length + 1))).getD b.length 0

section Distance

variable {a b : Text}

/-- The table of the distances of prefixes, without case. -/
abbrev letterTable (a b : Text) : Nat → Nat → Nat :=
  EditDistance.table (a.map erLower) (b.map erLower)

theorem set_map_range (f : Nat → Nat) {n k : Nat} (v : Nat) :
    ((List.range n).map f).set k v = (List.range n).map (Function.update f k v) := by
  refine ext_getElem (by simp) ?_
  intro j _ _
  simp [getElem_set, Function.update_apply, eq_comm]

theorem getD_map_range (f : Nat → Nat) {n k : Nat} (hk : k < n) :
    ((List.range n).map f).getD k 0 = f k := by
  simp [getD_eq_getElem?_getD, getElem?_range hk]

theorem eq_of_getElem?_range' {n p j : Nat} (h : (List.range' 1 n)[p]? = some j) :
    p < n ∧ j = p + 1 := by
  obtain ⟨hp, rfl⟩ := List.getElem_of_getElem? h
  rw [List.length_range'] at hp
  exact ⟨hp, by rw [List.getElem_range', Nat.one_mul, Nat.add_comm]⟩

/-- The row `i` of the table up to the column `p`, the row above it behind that. -/
def mixedRow (a b : Text) (i p j : Nat) : Nat :=
  if j ≤ p then letterTable a b (i + 1) j else letterTable a b i j

theorem editCell_spec {i p : Nat} (hi : i < a.length) (hp : p < b.length) :
    editCell a b (i + 1) ((List.range (b.length + 1)).map (mixedRow a b i p), letterTable a b i p)
        (p + 1) =
      ((List.range (b.length + 1)).map (mixedRow a b i (p + 1)), letterTable a b i (p + 1)) := by
  have hLeft : ((range (b.length + 1)).map (mixedRow a b i p)).getD p 0 =
      letterTable a b (i + 1) p := by
    rw [getD_map_range _ (by omega), mixedRow, if_pos (Nat.le_refl _)]
  have hAbove : ((range (b.length + 1)).map (mixedRow a b i p)).getD (p + 1) 0 =
      letterTable a b i (p + 1) := by
    rw [getD_map_range _ (by omega), mixedRow, if_neg (by omega)]
  have hSucc := @EditDistance.table_succ _ (a.map erLower) (b.map erLower) _ i p
    (by rwa [length_map]) (by rwa [length_map])
  rw [getElem_map, getElem_map] at hSucc
  unfold editCell
  simp only [Nat.add_sub_cancel, hLeft, hAbove, getElem?_eq_getElem hi,
    getElem?_eq_getElem hp, Option.map_some, Option.some.injEq, set_map_range]
  congr 2
  funext j
  rw [Function.update_apply]
  split
  · rename_i hHere
    rw [hHere, mixedRow, if_pos (Nat.le_refl _), letterTable, hSucc]
    generalize (if erLower a[i] = erLower b[p] then 0 else 1) = cost
    split <;> split <;> omega
  · unfold mixedRow
    split <;> split <;> first | rfl | omega

theorem editRow_spec {i : Nat} (hi : i < a.length) :
    editRow a b ((List.range (b.length + 1)).map (letterTable a b i)) (i + 1) =
      (List.range (b.length + 1)).map (letterTable a b (i + 1)) := by
  have hStart : (((range (b.length + 1)).map (letterTable a b i)).set 0 (i + 1),
      ((range (b.length + 1)).map (letterTable a b i)).getD 0 0) =
        ((range (b.length + 1)).map (mixedRow a b i 0), letterTable a b i 0) := by
    have hZero : letterTable a b (i + 1) 0 = i + 1 :=
      EditDistance.table_zero_right (by rwa [length_map])
    rw [set_map_range]
    congr 2
    · funext j
      rw [Function.update_apply, mixedRow]
      split
      · rename_i hHere
        rw [hHere, if_pos (Nat.le_refl _), hZero]
      · rw [if_neg (by omega)]
    · exact getD_map_range _ (Nat.succ_pos _)
  have hLoop := stateAt_invariant (f := editCell a b (i + 1)) (l := range' 1 b.length)
    (fun p s => s = ((range (b.length + 1)).map (mixedRow a b i p), letterTable a b i p))
    hStart ?_ (Nat.le_refl _)
  · rw [stateAt, take_length, length_range'] at hLoop
    rw [editRow, hLoop]
    refine map_congr_left ?_
    intro j hj
    rw [mixedRow, if_pos (Nat.lt_succ_iff.mp (mem_range.mp hj))]
  · rintro p j _ hColumn rfl
    obtain ⟨hp, rfl⟩ := eq_of_getElem?_range' hColumn
    exact editCell_spec hi hp

theorem errorReporterEditDistance_eq (a b : Text) : errorReporterEditDistance true a b =
      EditDistance.distance (a.map erLower) (b.map erLower) := by
  unfold errorReporterEditDistance
  split
  · rename_i hEmpty
    rw [length_eq_zero_iff.mp hEmpty, map_nil, EditDistance.distance_nil_left, length_map]
  split
  · rename_i hEmpty
    rw [length_eq_zero_iff.mp hEmpty, map_nil, EditDistance.distance_nil_right, length_map]
  have hStart : range (b.length + 1) = (range (b.length + 1)).map (letterTable a b 0) := by
    refine (map_id _).symm.trans (map_congr_left ?_)
    intro j hj
    have hShort : j ≤ (b.map erLower).length := by
      rw [length_map]
      exact Nat.lt_succ_iff.mp (mem_range.mp hj)
    exact (EditDistance.table_zero_left hShort).symm
  have hLoop := stateAt_invariant (f := editRow a b) (l := range' 1 a.length)
    (fun i row => row = (range (b.length + 1)).map (letterTable a b i)) hStart ?_
    (Nat.le_refl _)
  · have hLast := @EditDistance.table_length _ (a.map erLower) (b.map erLower) _
    rw [length_map, length_map] at hLast
    rw [stateAt, take_length, length_range'] at hLoop
    rw [hLoop, ← hLast, getD_map_range _ (Nat.lt_succ_self _)]
    rfl
  · rintro i row _ hRow rfl
    obtain ⟨hi, rfl⟩ := eq_of_getElem?_range' hRow
    exact editRow_spec hi

/-- **The distance is a metric** of the words without case. -/
theorem errorReporterEditDistance_metric (a b c : Text) :
    (errorReporterEditDistance true a b = 0 ↔ a.map erLower = b.map erLower) ∧
      errorReporterEditDistance true a b = errorReporterEditDistance true b a ∧
      errorReporterEditDistance true a c ≤
        errorReporterEditDistance true a b + errorReporterEditDistance true b c := by
  simp only [errorReporterEditDistance_eq]
  exact ⟨EditDistance.distance_eq_zero_iff, EditDistance.distance_comm _ _,
    EditDistance.distance_triangle _ _ _⟩

end Distance

-- ---
-- The candidate
-- ---

/-- A third of the name, at least 1 and at most 3. -/
def suggestionThreshold (name : Text) : Nat :=
  let threshold := name.length / 3
  let threshold := if threshold < 1 then 1 else threshold
  if threshold > 3 then 3 else threshold

/-- The body of the loop, on `best` and `best_distance`. A candidate may be NULL, and comes with
whether the row for it can be allocated. -/
def closestStep (name : Text) (state : Option Text × Nat) (candidate : Option Text × Bool) :
    Option Text × Nat :=
  match candidate.1 with
  | none => state
  | some cand =>
    if cand = [] then state
    else if cand = name then state
    else
      let d := errorReporterEditDistance candidate.2 name cand
      if d ≤ suggestionThreshold name ∧ d < state.2 then (some cand, d) else state

/-- `error_reporter_closest_candidate`; what is returned is copied. -/
def errorReporterClosestCandidate (name : Text) (candidates : List (Option Text × Bool)) :
    Option Text :=
  if candidates.length = 0 then none
  else if name.length = 0 then none
  else (candidates.foldl (closestStep name) (none, sizeMax)).1

/-- The strings among the candidates whose row can be allocated. -/
def comparable (candidates : List (Option Text × Bool)) : List Text :=
  candidates.filterMap fun candidate => if candidate.2 then candidate.1 else none

def Suggestible (name cand : Text) : Prop :=
  cand ≠ [] ∧ cand ≠ name ∧ errorReporterEditDistance true name cand ≤ suggestionThreshold name

instance (name : Text) : DecidablePred (Suggestible name) :=
  fun _ => inferInstanceAs (Decidable (_ ∧ _ ∧ _))

theorem suggestionThreshold_lt (name : Text) : suggestionThreshold name < sizeMax := by
  unfold suggestionThreshold
  dsimp only
  split <;> split <;> (unfold sizeMax; omega)

theorem distance_of_no_row {a b : Text} (ha : a ≠ []) (hb : b ≠ []) :
    errorReporterEditDistance false a b = sizeMax := by
  rw [errorReporterEditDistance, if_neg (mt length_eq_zero_iff.mp ha),
    if_neg (mt length_eq_zero_iff.mp hb)]
  rfl

variable {name : Text}

theorem closestStep_of_suggestible {cand : Text} (h : Suggestible name cand)
    (state : Option Text × Nat) :
    closestStep name state (some cand, true) =
      if errorReporterEditDistance true name cand < state.2 then
        (some cand, errorReporterEditDistance true name cand)
      else state := by
  obtain ⟨hNonempty, hOther, hNear⟩ := h
  unfold closestStep
  dsimp only
  rw [if_neg hNonempty, if_neg hOther]
  simp [hNear]

variable {candidate : Option Text × Bool}

theorem closestStep_of_not (hName : name ≠ [])
    (h : ∀ cand ∈ comparable [candidate], ¬Suggestible name cand) (state : Option Text × Nat) :
    closestStep name state candidate = state := by
  obtain ⟨cand, rowAllocated⟩ := candidate
  cases cand with
  | none => rfl
  | some cand =>
    unfold closestStep
    dsimp only
    split
    · rfl
    rename_i hNonempty
    split
    · rfl
    rename_i hOther
    refine if_neg ?_
    rintro ⟨hNear, -⟩
    cases rowAllocated with
    | false =>
      have hLimit := suggestionThreshold_lt name
      rw [distance_of_no_row hName hNonempty] at hNear
      omega
    | true => exact h cand (mem_singleton.mpr rfl) ⟨hNonempty, hOther, hNear⟩

theorem eq_of_mem_comparable {cand : Text} (h : cand ∈ comparable [candidate]) :
    candidate = (some cand, true) := by
  obtain ⟨candidate, rowAllocated⟩ := candidate
  cases rowAllocated <;> cases candidate <;> simp_all [comparable]

theorem closest_foldl (hName : name ≠ []) (candidates : List (Option Text × Bool)) :
    candidates.foldl (closestStep name) (none, sizeMax) =
      let best := ((comparable candidates).filter (Suggestible name)).argmin
        (errorReporterEditDistance true name)
      (best, best.elim sizeMax (errorReporterEditDistance true name)) := by
  induction candidates using reverseRecOn with
  | nil => rfl
  | append_singleton candidates candidate ih =>
    have hSplit : comparable (candidates ++ [candidate]) =
        comparable candidates ++ comparable [candidate] := filterMap_append
    rw [foldl_concat, ih, hSplit, filter_append]
    generalize (comparable candidates).filter (Suggestible name) = earlier
    by_cases hNext : ∀ cand ∈ comparable [candidate], ¬Suggestible name cand
    · rw [closestStep_of_not hName hNext, filter_eq_nil_iff.mpr (by simpa using hNext), append_nil]
    · obtain ⟨cand, hMem, hCand⟩ : ∃ cand ∈ comparable [candidate], Suggestible name cand := by
        simpa using hNext
      obtain rfl := eq_of_mem_comparable hMem
      have hFilter : (comparable [(some cand, true)]).filter (Suggestible name) = [cand] :=
        filter_cons_of_pos (decide_eq_true hCand)
      have hLimit : errorReporterEditDistance true name cand < sizeMax :=
        hCand.2.2.trans_lt (suggestionThreshold_lt name)
      rw [hFilter, closestStep_of_suggestible hCand, argmin_concat]
      cases earlier.argmin (errorReporterEditDistance true name) with
      | none => exact if_pos hLimit
      | some best =>
        by_cases hNearer :
          errorReporterEditDistance true name cand < errorReporterEditDistance true name best
        · simp [hNearer]
        · simp [hNearer]

/-- **The distance is the edit distance** without case, and the candidate is the first nearest one
of the nonempty ones that differ from the name and are within the threshold. -/
theorem closest_candidate_first_nearest :
    (∀ a b : Text, IsLeast {n | EditDistance.Edits n (a.map erLower) (b.map erLower)}
      (errorReporterEditDistance true a b)) ∧
    ∀ (name : Text) (candidates : List (Option Text × Bool)),
      errorReporterClosestCandidate name candidates =
        if name = [] then none
        else ((comparable candidates).filter fun cand => cand ≠ [] ∧ cand ≠ name ∧
          errorReporterEditDistance true name cand ≤ suggestionThreshold name).argmin
            (errorReporterEditDistance true name) := by
  refine ⟨?_, ?_⟩
  · intro a b
    rw [errorReporterEditDistance_eq]
    exact EditDistance.isLeast_distance _ _
  · intro name candidates
    unfold errorReporterClosestCandidate
    split
    · rename_i hNone
      rw [length_eq_zero_iff.mp hNone]
      exact (ite_self _).symm
    · by_cases hName : name = []
      · rw [if_pos hName, if_pos (length_eq_zero_iff.mpr hName)]
      · rw [if_neg hName, if_neg (mt length_eq_zero_iff.mp hName), closest_foldl hName]
        rfl

/-- The empty candidate is one letter away from `i`, and is passed over. -/
theorem empty_candidate_skipped : ((comparable [(some [], true)]).filter fun cand => cand ≠ ['i'] ∧
      errorReporterEditDistance true ['i'] cand ≤ suggestionThreshold ['i']).argmin
        (errorReporterEditDistance true ['i']) = some [] ∧
    errorReporterClosestCandidate ['i'] [(some [], true)] = none := by
  decide

end Mettle.Error
