import Mettle.Lib.OpenAddressing
import Mettle.Parser.Tree

/-!
# Mettle — names of declarations

`DeclNameMap` finds the declaration of a name for the export closure. A bucket
holds a position in the list of keys, where the source keeps key and value in the
bucket itself. A probe that would not end is `none`.
-/

namespace Mettle.Semantic

open Mettle.Lib Mettle.Lexing Mettle.Parser List Option

-- ---
-- The map
-- ---

/-- The name a declaration is found under. -/
def getDeclarationName : Tree → Option Text
  | .node (.functionDeclaration header) _ => some header.name
  | .node (.structDeclaration name _ _ _ _) _ => some name
  | .node (.enumDeclaration name _ _) _ => some name
  | .node (.traitDeclaration name _) _ => some name
  | .node (.varDeclaration name _ _) _ => some name
  | _ => none

def mettleFnv1aHash (str : Text) : Nat :=
  (str.foldl (fun hash c => (hash ^^^ BitVec.ofNat 64 c.toNat) * 1099511628211#64)
    1469598103934665603#64).toNat

/-- Names, their places and the buckets; allocations succeed. -/
structure DeclNameMap where
  keys : List Text
  vals : List Nat
  buckets : List Nat

/-- The loop that doubles `cap`; it ends within `want` rounds. -/
def doubledTo (want : Nat) : Nat → Nat → Nat
  | 0, cap => cap
  | rounds + 1, cap => if cap < want then doubledTo want rounds (cap * 2) else cap

/-- Enough buckets for twice the names expected. -/
def declNameMapInit (expectedEntries : Nat) : DeclNameMap :=
  let want := (expectedEntries + 1) * 2
  ⟨[], [], List.replicate (doubledTo want want 16) 0⟩

/-- `decl_name_map_put`: a key that is there stays as it is. -/
def declNameMapPut (m : DeclNameMap) (key : Text) (declIndex : Nat) : Option DeclNameMap :=
  match OpenAddressing.find mettleFnv1aHash m.keys m.buckets key with
  | none => none
  | some (some _) => some m
  | some none =>
    (OpenAddressing.insert mettleFnv1aHash (fun i => m.keys[i]? == some key) (m.keys ++ [key])
      m.buckets m.keys.length).map fun buckets => ⟨m.keys ++ [key], m.vals ++ [declIndex], buckets⟩

/-- The place of a name. -/
def declNameMapGet (m : DeclNameMap) (key : Text) : Option (Option Nat) :=
  (OpenAddressing.find mettleFnv1aHash m.keys m.buckets key).map fun found =>
    found.bind (m.vals[·]?)

/-- Puts the named declarations, from declaration `j` on. -/
def declNameMapPutAll : DeclNameMap → Nat → List Tree → Option DeclNameMap
  | m, _, [] => some m
  | m, j, d :: ds =>
    match getDeclarationName d with
    | none => declNameMapPutAll m (j + 1) ds
    | some name => (declNameMapPut m name j).bind fun m => declNameMapPutAll m (j + 1) ds

def declNameMap (declarations : List Tree) : Option DeclNameMap :=
  declNameMapPutAll (declNameMapInit declarations.length) 0 declarations

def firstDeclaration (declarations : List Tree) (name : Text) : Option Nat :=
  declarations.findIdx? fun d => getDeclarationName d == some name

-- ---
-- What it finds
-- ---

theorem le_doubledTo (want rounds cap : Nat) (hCap : 0 < cap) (h : want ≤ cap + rounds) :
    want ≤ doubledTo want rounds cap := by
  induction rounds generalizing cap with
  | zero => exact h
  | succ rounds ih =>
    rw [doubledTo]
    split
    · exact ih (cap * 2) (by omega) (by omega)
    · omega

/-- The map holds the first declarations of the names in `declarations`, and has
room for `room` more. -/
structure Holds (declarations : List Tree) (room : Nat) (m : DeclNameMap) : Prop where
  valid : OpenAddressing.Valid mettleFnv1aHash m.keys m.buckets
  nodup : m.keys.Nodup
  vals : m.vals.length = m.keys.length
  room : m.keys.length + room < m.buckets.length
  first : ∀ name, (m.keys.findIdx? (· == name)).bind (m.vals[·]?) =
    firstDeclaration declarations name

theorem holds_init (n : Nat) : Holds [] n (declNameMapInit n) where
  valid := OpenAddressing.valid_replicate _
  nodup := nodup_nil
  vals := rfl
  room := by
    have hCap := le_doubledTo ((n + 1) * 2) ((n + 1) * 2) 16 (by omega) (by omega)
    simp only [declNameMapInit, length_replicate, length_nil]
    omega
  first _ := rfl

variable {declarations : List Tree} {room : Nat} {m : DeclNameMap}

theorem Holds.get (h : Holds declarations room m) (name : Text) :
    declNameMapGet m name = some (firstDeclaration declarations name) := by
  have hRoom := h.room
  rw [declNameMapGet, OpenAddressing.find_eq h.valid (by omega) h.nodup, map_some, h.first]

theorem firstDeclaration_append (name : Text) (d : Tree) :
    firstDeclaration (declarations ++ [d]) name = (firstDeclaration declarations name).or
        (if getDeclarationName d = some name then some declarations.length else none) := by
  unfold firstDeclaration
  by_cases hName : getDeclarationName d = some name
  · simp [hName]
  · simp [hName, beq_eq_false_iff_ne.mpr hName]

theorem Holds.skip {d : Tree} (h : Holds declarations (room + 1) m)
    (hName : getDeclarationName d = none) : Holds (declarations ++ [d]) room m where
  valid := h.valid
  nodup := h.nodup
  vals := h.vals
  room := by
    have hRoom := h.room
    omega
  first name := by
    rw [h.first, firstDeclaration_append, hName, if_neg (by simp), or_none]

theorem Holds.put {d : Tree} {name : Text} (h : Holds declarations (room + 1) m)
    (hName : getDeclarationName d = some name) :
    ∃ m', declNameMapPut m name declarations.length = some m' ∧
      Holds (declarations ++ [d]) room m' := by
  have hRoom := h.room
  have hFind := OpenAddressing.find_eq h.valid (by omega) h.nodup name
  have hFirst := h.first
  unfold declNameMapPut
  rw [hFind]
  cases hAt : m.keys.findIdx? (· == name) with
  | some i =>
    refine ⟨m, rfl, h.valid, h.nodup, h.vals, by omega, fun n => ?_⟩
    rw [hFirst, firstDeclaration_append, hName]
    by_cases hSame : name = n
    · subst hSame
      -- the key was there, so a declaration in front has the name
      obtain ⟨hi, -⟩ := findIdx?_eq_some_iff_getElem.mp hAt
      have hFound := hFirst name
      rw [hAt, bind_some, getElem?_eq_getElem (by rw [h.vals]; exact hi)] at hFound
      rw [← hFound, some_or]
    · rw [if_neg (by simpa using hSame), or_none]
  | none =>
    have hNew : name ∉ m.keys := by
      intro hMem
      have hNone := findIdx?_eq_none_iff.mp hAt name hMem
      simp at hNone
    obtain ⟨buckets', hInsert, hValid, hLength⟩ := OpenAddressing.insert_valid h.valid (by omega)
      name [] (fun i => m.keys[i]? == some name) (by
        intro i hi
        rw [getElem?_eq_getElem hi, beq_eq_false_iff_ne]
        intro hSame
        exact hNew (some.inj hSame ▸ getElem_mem hi))
    rw [hInsert]
    refine ⟨_, rfl, hValid, ?_, ?_, ?_, fun n => ?_⟩
    · exact nodup_append.mpr ⟨h.nodup, nodup_singleton name, by
        intro a ha b hb hSame
        rw [mem_singleton] at hb
        exact hNew (hb ▸ hSame ▸ ha)⟩
    · simp [h.vals]
    · simp only [length_append, length_singleton]
      omega
    · rw [firstDeclaration_append, hName, ← hFirst n, findIdx?_append]
      by_cases hSame : name = n
      · subst hSame
        simp [hAt, h.vals]
      · cases hOld : m.keys.findIdx? (· == n) with
        | none => simp [hSame]
        | some i =>
          obtain ⟨hi, -⟩ := findIdx?_eq_some_iff_getElem.mp hOld
          simp [hSame, getElem?_append_left (show i < m.vals.length by rw [h.vals]; exact hi)]

theorem Holds.putAll {ds : List Tree} (h : Holds declarations ds.length m) :
    ∃ m', declNameMapPutAll m declarations.length ds = some m' ∧
      Holds (declarations ++ ds) 0 m' := by
  induction ds generalizing declarations m with
  | nil => exact ⟨m, rfl, by simpa using h⟩
  | cons d ds ih =>
    have hLength : (declarations ++ [d]).length = declarations.length + 1 := by simp
    rw [declNameMapPutAll]
    cases hName : getDeclarationName d with
    | none =>
      obtain ⟨m', hAll, hHolds⟩ := ih (h.skip hName)
      rw [hLength] at hAll
      exact ⟨m', hAll, by simpa using hHolds⟩
    | some name =>
      obtain ⟨m₁, hPut, hHolds₁⟩ := h.put hName
      obtain ⟨m', hAll, hHolds⟩ := ih hHolds₁
      rw [hLength] at hAll
      exact ⟨m', by simp [hPut, hAll], by simpa using hHolds⟩

/-- **First declaration wins.** -/
theorem declNameMapGet_eq (declarations : List Tree) : ∃ m, declNameMap declarations = some m ∧
      ∀ name, declNameMapGet m name = some (firstDeclaration declarations name) := by
  obtain ⟨m, hMap, hHolds⟩ := (holds_init declarations.length).putAll
  exact ⟨m, hMap, hHolds.get⟩

end Mettle.Semantic
