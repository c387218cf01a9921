import Mathlib.Data.List.Basic

/-!
# Mettle — tables of names that are referenced and defined

A table collects names from a sequence of occurrences, each of which either only
mentions its name or defines it. Recording a second definition of a name fails.
The order of the occurrences does not matter: whether recording succeeds, and what
the table then holds, depends only on the definitions listed for each name.
-/

namespace Mettle.Lib.NameTable

variable {N D : Type*} [DecidableEq N]

/-- An occurrence of a name: a mention (`none`) or a definition. -/
abbrev Occurrence (N D : Type*) := N × Option D

/-- `none` for a name never seen, `some none` for one seen but not defined. -/
abbrev Table (N D : Type*) := N → Option (Option D)

/-- Records one occurrence; a second definition fails. -/
def record (e : Occurrence N D) (t : Table N D) : Option (Table N D) :=
  match e.2, (t e.1).join with
  | some _, some _ => none
  | some d, none => some (Function.update t e.1 (some (some d)))
  | none, known => some (Function.update t e.1 (some known))

def recordAll : List (Occurrence N D) → Table N D → Option (Table N D)
  | [], t => some t
  | e :: es, t => (record e t).bind (recordAll es)

theorem recordAll_append (es es' : List (Occurrence N D)) (t : Table N D) :
    recordAll (es ++ es') t = (recordAll es t).bind (recordAll es') := by
  induction es generalizing t with
  | nil => rfl
  | cons e es ih =>
    rw [List.cons_append, recordAll, recordAll]
    cases record e t with
    | none => rfl
    | some t₁ => exact ih t₁

/-- The definitions given for `n`, in order. -/
def definitions (es : List (Occurrence N D)) (n : N) : List D :=
  es.filterMap fun e => if e.1 = n then e.2 else none

/-- The definition of `n` already in the table, followed by those in `es`. -/
def allDefinitions (t : Table N D) (es : List (Occurrence N D)) (n : N) : List D :=
  (t n).join.toList ++ definitions es n

/-- The table after recording `es` without a clash. -/
def recorded (t : Table N D) (es : List (Occurrence N D)) : Table N D := fun n =>
  if n ∈ es.map Prod.fst then some (allDefinitions t es n).head? else t n

theorem definitions_cons (e : Occurrence N D) (es : List (Occurrence N D)) (n : N) :
    definitions (e :: es) n = (if e.1 = n then e.2.toList else []) ++ definitions es n := by
  unfold definitions
  rw [List.filterMap_cons]
  by_cases h : e.1 = n
  · rw [if_pos h, if_pos h]
    cases e.2 <;> rfl
  · rw [if_neg h, if_neg h]
    rfl

variable {es : List (Occurrence N D)}

theorem definitions_eq_nil {n : N} (h : n ∉ es.map Prod.fst) :
    definitions es n = [] := by
  unfold definitions
  rw [List.filterMap_eq_nil_iff]
  intro e he
  rw [if_neg]
  rintro rfl
  exact h (List.mem_map_of_mem he)

theorem mem_definitions {n : N} {d : D} : d ∈ definitions es n ↔ (n, some d) ∈ es := by
  unfold definitions
  rw [List.mem_filterMap]
  constructor
  · rintro ⟨⟨m, d'⟩, hMem, hEq⟩
    by_cases h : m = n
    · subst h
      rw [if_pos rfl] at hEq
      have hd : d' = some d := hEq
      rwa [hd] at hMem
    · rw [if_neg h] at hEq
      cases hEq
  · intro h
    exact ⟨(n, some d), h, if_pos rfl⟩

variable {e : Occurrence N D} {t t' : Table N D}

theorem record_eq_some_iff : record e t = some t' ↔ (e.2 = none ∨ (t e.1).join = none) ∧
        t' = Function.update t e.1 (some (e.2.or (t e.1).join)) := by
  obtain ⟨m, d⟩ := e
  cases d with
  | none => simp [record, eq_comm]
  | some d =>
    cases hKnown : (t m).join with
    | none => simp [record, hKnown, eq_comm]
    | some d' => simp [record, hKnown]

theorem allDefinitions_of_record (h : record e t = some t') (es : List (Occurrence N D)) (n : N) :
    allDefinitions t' es n = allDefinitions t (e :: es) n := by
  obtain ⟨hOne, rfl⟩ := record_eq_some_iff.mp h
  unfold allDefinitions
  rw [definitions_cons]
  by_cases hn : n = e.1
  · subst hn
    rw [Function.update_self, if_pos rfl, ← List.append_assoc]
    congr 1
    rcases hOne with hMention | hNew
    · rw [hMention]
      simp
    · rw [hNew]
      cases e.2 <;> rfl
  · rw [Function.update_of_ne hn, if_neg (Ne.symm hn), List.nil_append]

theorem recorded_of_record (h : record e t = some t') (es : List (Occurrence N D)) :
    recorded t' es = recorded t (e :: es) := by
  funext n
  unfold recorded
  rw [List.map_cons]
  by_cases hIn : n ∈ es.map Prod.fst
  · rw [if_pos hIn, if_pos (List.mem_cons_of_mem _ hIn), allDefinitions_of_record h]
  · rw [if_neg hIn]
    by_cases hn : n = e.1
    · -- the step itself is the last occurrence of its name
      subst hn
      rw [if_pos List.mem_cons_self, ← allDefinitions_of_record h, allDefinitions,
        definitions_eq_nil hIn, List.append_nil, (record_eq_some_iff.mp h).2,
        Function.update_self]
      cases e.2.or (t e.1).join <;> rfl
    · have hOut : n ∉ e.1 :: es.map Prod.fst := by
        rw [List.mem_cons]
        exact fun h => h.elim hn hIn
      rw [if_neg hOut, (record_eq_some_iff.mp h).2, Function.update_of_ne hn]

/-- **Recording succeeds exactly when no name is defined twice**, and the table then
holds the definition of each name. -/
theorem recordAll_eq_some_iff : recordAll es t = some t' ↔
      (∀ n, (allDefinitions t es n).length ≤ 1) ∧ t' = recorded t es := by
  induction es generalizing t with
  | nil =>
    constructor
    · intro h
      obtain rfl : t = t' := Option.some.inj h
      refine ⟨fun n => ?_, ?_⟩
      · unfold allDefinitions definitions
        cases (t n).join <;> simp
      · funext n
        simp [recorded]
    · rintro ⟨-, rfl⟩
      have hSame : recorded t [] = t := by
        funext n
        simp [recorded]
      rw [hSame, recordAll]
  | cons e es ih =>
    cases hStep : record e t with
    | some t₁ =>
      rw [recordAll, hStep, Option.bind_some, ih, recorded_of_record hStep]
      simp only [allDefinitions_of_record hStep]
    | none =>
      rw [recordAll, hStep, Option.bind_none]
      constructor
      · intro h
        cases h
      · rintro ⟨hOne, -⟩
        -- a failed step is a second definition of its name
        obtain ⟨m, d⟩ := e
        have hm := hOne m
        unfold allDefinitions at hm
        rw [definitions_cons, if_pos rfl] at hm
        cases d with
        | none => cases hStep
        | some d =>
          cases hKnown : (t m).join with
          | none => simp [record, hKnown] at hStep
          | some d' =>
            rw [hKnown] at hm
            simp at hm

end Mettle.Lib.NameTable
