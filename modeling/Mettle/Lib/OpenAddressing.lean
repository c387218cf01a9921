import Mathlib.Data.List.Nodup
import Mathlib.Data.Nat.Find

/-!
# Mettle — an index of keys by open addressing

The items of a growing list are found again through a table of buckets: 0 is an empty bucket
and `i + 1` holds item `i`. An item is looked for from the place its key hashes to, one bucket
after the other and around the end. Nothing is ever taken out, so an item stays reachable as
long as the buckets in front of it stay full.

The loops take a number of rounds and give up when it is used up; `probe_spec` says that as many
rounds as there are buckets are enough if one of them is empty.
-/

namespace Mettle.Lib.OpenAddressing

open List

variable {K : Type}

-- ---
-- Probing
-- ---

/-- The first bucket from `pos` on that is empty or holds an item to stop at. -/
def probe (buckets : List Nat) (stop : Nat → Bool) : Nat → Nat → Option Nat
  | 0, _ => none
  | rounds + 1, pos =>
    match buckets[pos]? with
    | none => none
    | some 0 => some pos
    | some (i + 1) =>
      if stop i then some pos else probe buckets stop rounds ((pos + 1) % buckets.length)

/-- The bucket `d` places behind `start`, around the end. -/
def slot (buckets : List Nat) (start d : Nat) : Option Nat :=
  buckets[(start + d) % buckets.length]?

/-- The probe passes the bucket. -/
def Passes (stop : Nat → Bool) (bucket : Option Nat) : Prop :=
  ∃ i, bucket = some (i + 1) ∧ stop i = false

section Probing

variable {buckets : List Nat}

theorem slot_isSome (hLength : 0 < buckets.length) (start d : Nat) :
    ∃ b, slot buckets start d = some b := by
  have hLt : (start + d) % buckets.length < buckets.length := Nat.mod_lt _ hLength
  exact ⟨_, getElem?_eq_getElem hLt⟩

theorem slot_succ (start d : Nat) :
    slot buckets ((start + 1) % buckets.length) d = slot buckets start (d + 1) := by
  unfold slot
  rw [Nat.mod_add_mod, Nat.add_assoc, Nat.add_comm 1 d]

theorem slot_mod (start d : Nat) :
    slot buckets (start % buckets.length) d = slot buckets start d := by
  unfold slot
  rw [Nat.mod_add_mod]

theorem probe_of_passes {stop : Nat → Bool} {pos d rounds : Nat} (hPos : pos < buckets.length)
    (hRounds : d < rounds) (hBefore : ∀ d' < d, Passes stop (slot buckets pos d'))
    (hHere : ¬Passes stop (slot buckets pos d)) :
    probe buckets stop rounds pos = some ((pos + d) % buckets.length) := by
  have hLength : 0 < buckets.length := Nat.zero_lt_of_lt hPos
  induction d generalizing pos rounds with
  | zero =>
    obtain ⟨rounds, rfl⟩ : ∃ r, rounds = r + 1 := ⟨rounds - 1, by omega⟩
    have hMod : (pos + 0) % buckets.length = pos := Nat.mod_eq_of_lt hPos
    have hSlot : slot buckets pos 0 = buckets[pos]? := by rw [slot, hMod]
    rw [hSlot] at hHere
    rw [hMod, probe]
    split
    · rename_i hNone
      rw [getElem?_eq_none_iff] at hNone
      omega
    · rfl
    · rename_i i hItem
      have hStop : stop i = true := by
        rw [← Bool.not_eq_false]
        intro hGo
        exact hHere ⟨i, hItem, hGo⟩
      rw [if_pos hStop]
  | succ d ih =>
    obtain ⟨rounds, rfl⟩ : ∃ r, rounds = r + 1 := ⟨rounds - 1, by omega⟩
    obtain ⟨i, hItem, hGo⟩ := hBefore 0 (Nat.succ_pos _)
    rw [slot, Nat.add_zero, Nat.mod_eq_of_lt hPos] at hItem
    rw [probe, hItem]
    dsimp only
    rw [if_neg (by rw [hGo]; exact Bool.false_ne_true)]
    rw [ih (Nat.mod_lt _ hLength) (by omega)]
    · rw [Nat.mod_add_mod, Nat.add_assoc, Nat.add_comm 1 d]
    · intro d' hd'
      rw [slot_succ]
      exact hBefore (d' + 1) (by omega)
    · rw [slot_succ]
      exact hHere

/-- **The probe ends.** -/
theorem probe_spec (stop : Nat → Bool) {pos : Nat} (hPos : pos < buckets.length)
    (hEmpty : 0 ∈ buckets) :
    ∃ d < buckets.length, probe buckets stop buckets.length pos =
        some ((pos + d) % buckets.length) ∧
      ¬Passes stop (slot buckets pos d) ∧ ∀ d' < d, Passes stop (slot buckets pos d') := by
  obtain ⟨e, he, hZero⟩ := getElem_of_mem hEmpty
  -- the distance to the empty bucket
  have hReach : ∃ d < buckets.length, ¬Passes stop (slot buckets pos d) := by
    refine ⟨(e + buckets.length - pos) % buckets.length, Nat.mod_lt _ (by omega), ?_⟩
    have hPlace : (pos + (e + buckets.length - pos) % buckets.length) % buckets.length = e := by
      rw [Nat.add_mod_mod, show pos + (e + buckets.length - pos) = e + buckets.length by omega,
        Nat.add_mod_right, Nat.mod_eq_of_lt he]
    rintro ⟨i, hItem, -⟩
    rw [slot, hPlace, getElem?_eq_getElem he, hZero] at hItem
    cases hItem
  classical
  obtain ⟨hLt, hStop⟩ := Nat.find_spec hReach
  have hBefore : ∀ d' < Nat.find hReach, Passes stop (slot buckets pos d') := by
    intro d' hd'
    have hMin := Nat.find_min hReach hd'
    by_contra hNot
    exact hMin ⟨by omega, hNot⟩
  exact ⟨_, hLt, probe_of_passes hPos hLt hBefore hStop, hStop, hBefore⟩

end Probing

-- ---
-- Tables
-- ---

/-- Every item can be found, and no more buckets are full than there are items. -/
structure Valid (hash : K → Nat) (keys : List K) (buckets : List Nat) : Prop where
  bounds : ∀ b ∈ buckets, b ≤ keys.length
  chains : ∀ i k, keys[i]? = some k → ∃ d < buckets.length,
    slot buckets (hash k) d = some (i + 1) ∧ ∀ d' < d, slot buckets (hash k) d' ≠ some 0
  occupied : buckets.countP (· != 0) ≤ keys.length

section Tables

variable (hash : K → Nat)

/-- The index of a key: whether the probe ends, and what it finds. -/
def find [BEq K] (keys : List K) (buckets : List Nat) (k : K) : Option (Option Nat) :=
  match probe buckets (fun i => keys[i]? == some k) buckets.length (hash k % buckets.length) with
  | none => none
  | some pos =>
    match buckets[pos]? with
    | some (i + 1) => some (some i)
    | _ => some none

/-- Puts item `i` where the probe ends. -/
def insert (stop : Nat → Bool) (keys : List K) (buckets : List Nat) (i : Nat) : Option (List Nat) :=
  match keys[i]? with
  | none => none
  | some k =>
    (probe buckets stop buckets.length (hash k % buckets.length)).map
      fun pos => buckets.set pos (i + 1)

/-- A new table with the first items of the list. -/
def rehash (keys : List K) (size : Nat) : Nat → Option (List Nat)
  | 0 => some (List.replicate size 0)
  | count + 1 =>
    (rehash keys size count).bind fun buckets => insert hash (fun _ => false) keys buckets count

variable {hash} {keys : List K} {buckets : List Nat}

theorem Valid.empty_mem (h : Valid hash keys buckets) (hRoom : keys.length < buckets.length) :
    0 ∈ buckets := by
  by_contra hFull
  have hAll : buckets.countP (· != 0) = buckets.length := by
    rw [countP_eq_length]
    intro b hb
    rw [bne_iff_ne]
    rintro rfl
    exact hFull hb
  have hOccupied := h.occupied
  omega

theorem valid_replicate (size : Nat) : Valid hash [] (List.replicate size 0) where
  bounds b hb := by
    rw [(mem_replicate.mp hb).2]
    exact Nat.zero_le _
  chains i k hk := by cases hk
  occupied := by
    rw [countP_replicate]
    exact Nat.le_refl _

/-- Of the items with one key, the first is the one that the probe for it comes to. -/
structure FirstValid [BEq K] (hash : K → Nat) (keys : List K) (buckets : List Nat) : Prop
    extends Valid hash keys buckets where
  first : ∀ k i, keys.findIdx? (· == k) = some i → ∃ d < buckets.length,
    slot buckets (hash k) d = some (i + 1) ∧
      ∀ d' < d, Passes (fun j => keys[j]? == some k) (slot buckets (hash k) d')

/-- **The lookup finds the first item of the key.** -/
theorem find_first [BEq K] [LawfulBEq K] (h : FirstValid hash keys buckets)
    (hRoom : keys.length < buckets.length) (k : K) :
    find hash keys buckets k = some (keys.findIdx? (· == k)) := by
  have hLength : 0 < buckets.length := by omega
  unfold find
  cases hFind : keys.findIdx? (· == k) with
  | some i =>
    obtain ⟨d, hLt, hSlot, hBefore⟩ := h.first k i hFind
    obtain ⟨hi, hKey, -⟩ := findIdx?_eq_some_iff_getElem.mp hFind
    have hStop : ¬Passes (fun j => keys[j]? == some k) (slot buckets (hash k) d) := by
      rintro ⟨j, hItem, hOther⟩
      rw [hSlot] at hItem
      cases hItem
      simp [getElem?_eq_getElem hi, eq_of_beq hKey] at hOther
    rw [probe_of_passes (Nat.mod_lt (hash k) hLength) hLt (by simpa only [slot_mod] using hBefore)
      (by simpa only [slot_mod] using hStop), Nat.mod_add_mod]
    dsimp only
    rw [show buckets[(hash k + d) % buckets.length]? = some (i + 1) from hSlot]
  | none =>
    obtain ⟨d, -, hProbe, hStop, -⟩ := probe_spec (fun i => keys[i]? == some k)
      (Nat.mod_lt (hash k) hLength) (h.empty_mem hRoom)
    rw [hProbe]
    dsimp only
    split
    · rename_i i hItem
      -- an item that is not passed has the key
      have hKey : keys[i]? = some k := by
        by_contra hOther
        exact hStop ⟨i, hItem, by simp [hOther]⟩
      have hDiffer := findIdx?_eq_none_iff.mp hFind k (mem_of_getElem? hKey)
      simp at hDiffer
    · rfl

theorem Valid.firstValid [BEq K] [LawfulBEq K] (h : Valid hash keys buckets) (hNodup : keys.Nodup) :
    FirstValid hash keys buckets := by
  refine ⟨h, ?_⟩
  intro k i hFind
  obtain ⟨hi, hSame, -⟩ := List.findIdx?_eq_some_iff_getElem.mp hFind
  have hKey : keys[i]? = some k := by rw [List.getElem?_eq_getElem hi, eq_of_beq hSame]
  obtain ⟨d, hLt, hSlot, hChain⟩ := h.chains i k hKey
  have hReach : ∃ d < buckets.length, slot buckets (hash k) d = some (i + 1) := ⟨d, hLt, hSlot⟩
  classical
  obtain ⟨hFirstLt, hFirst⟩ := Nat.find_spec hReach
  refine ⟨Nat.find hReach, hFirstLt, hFirst, ?_⟩
  intro d' hd'
  have hLe := Nat.find_min' hReach ⟨hLt, hSlot⟩
  obtain ⟨b, hb⟩ := slot_isSome (Nat.zero_lt_of_lt hLt) (hash k) d'
  cases b with
  | zero => exact absurd hb (hChain d' (by omega))
  | succ j =>
    refine ⟨j, hb, ?_⟩
    rw [beq_eq_false_iff_ne]
    intro hAgain
    obtain ⟨hj, hGet⟩ := List.getElem_of_getElem? hAgain
    have hIndex : j = i := hNodup.getElem_inj_iff.mp (hGet.trans (eq_of_beq hSame).symm)
    exact Nat.find_min hReach hd' ⟨by omega, by rw [hb, hIndex]⟩

/-- **The lookup is exact.** -/
theorem find_eq [BEq K] [LawfulBEq K] (h : Valid hash keys buckets)
    (hRoom : keys.length < buckets.length) (hNodup : keys.Nodup) (k : K) :
    find hash keys buckets k = some (keys.findIdx? (· == k)) :=
  find_first (h.firstValid hNodup) hRoom k

theorem slot_set_of_full {place d b v : Nat} (hEmpty : slot buckets place d = some 0)
    {start e : Nat} (hSlot : slot buckets start e = some b) (hNonzero : b ≠ 0) :
    slot (buckets.set ((place + d) % buckets.length) v) start e = some b := by
  unfold slot at hSlot hEmpty ⊢
  rw [length_set, getElem?_set_ne]
  · exact hSlot
  · intro hSame
    rw [hSame, hSlot] at hEmpty
    exact hNonzero (Option.some.inj hEmpty)

theorem slot_set_self {place d v : Nat} (hLength : 0 < buckets.length) :
    slot (buckets.set ((place + d) % buckets.length) v) place d = some v := by
  rw [slot, length_set, getElem?_set_self (Nat.mod_lt _ hLength)]

theorem Valid.set (h : Valid hash keys buckets) {k : K} {d : Nat} (hLt : d < buckets.length)
    (hEmpty : slot buckets (hash k) d = some 0)
    (hBefore : ∀ d' < d, slot buckets (hash k) d' ≠ some 0) :
    Valid hash (keys ++ [k]) (buckets.set ((hash k + d) % buckets.length) (keys.length + 1)) := by
  have hPlace : (hash k + d) % buckets.length < buckets.length := Nat.mod_lt _ (by omega)
  have hNonempty : ∀ start e, slot buckets start e ≠ some 0 →
      slot (buckets.set ((hash k + d) % buckets.length) (keys.length + 1)) start e ≠ some 0 := by
    intro start e hSlot
    obtain ⟨b, hb⟩ := slot_isSome (Nat.zero_lt_of_lt hPlace) start e
    have hNonzero : b ≠ 0 := by
      rintro rfl
      exact hSlot hb
    rw [slot_set_of_full hEmpty hb hNonzero]
    intro hZero
    exact hNonzero (Option.some.inj hZero)
  refine ⟨?_, ?_, ?_⟩
  · intro b hb
    rw [length_append, length_singleton]
    rcases mem_or_eq_of_mem_set hb with hOld | rfl
    · have := h.bounds b hOld
      omega
    · exact Nat.le_refl _
  · intro i k' hKey
    rw [length_set]
    rcases Nat.lt_or_ge i keys.length with hOld | hNew
    · rw [getElem?_append_left hOld] at hKey
      obtain ⟨e, he, hSlot, hChain⟩ := h.chains i k' hKey
      exact ⟨e, he, slot_set_of_full hEmpty hSlot (Nat.succ_ne_zero i),
        fun e' he' => hNonempty _ _ (hChain e' he')⟩
    · rw [getElem?_append_right hNew] at hKey
      have hi : i = keys.length := by
        have hShort := (List.getElem_of_getElem? hKey).1
        rw [length_singleton] at hShort
        omega
      subst hi
      rw [Nat.sub_self, getElem?_cons_zero] at hKey
      cases hKey
      exact ⟨d, hLt, slot_set_self (by omega), fun d' hd' => hNonempty _ _ (hBefore d' hd')⟩
  · rw [countP_set hPlace, length_append, length_singleton]
    have hOccupied := h.occupied
    split <;> split <;> omega

theorem FirstValid.set [BEq K] [LawfulBEq K] (h : FirstValid hash keys buckets) {k : K} {d : Nat}
    (hLt : d < buckets.length) (hEmpty : slot buckets (hash k) d = some 0)
    (hBefore : ∀ d' < d, slot buckets (hash k) d' ≠ some 0) :
    FirstValid hash (keys ++ [k])
      (buckets.set ((hash k + d) % buckets.length) (keys.length + 1)) := by
  refine ⟨h.toValid.set hLt hEmpty hBefore, ?_⟩
  intro k' i hFind
  rw [length_set]
  -- the older items are passed as before
  have hPasses : ∀ {e j}, slot buckets (hash k') e = some (j + 1) → (keys[j]? == some k') = false →
      Passes (fun j => (keys ++ [k])[j]? == some k')
        (slot (buckets.set ((hash k + d) % buckets.length) (keys.length + 1)) (hash k') e) := by
    intro e j hItem hOther
    refine ⟨j, slot_set_of_full hEmpty hItem (Nat.succ_ne_zero j), ?_⟩
    have hOld := h.bounds (j + 1) (mem_of_getElem? hItem)
    dsimp only
    rwa [getElem?_append_left (by omega)]
  rw [findIdx?_append] at hFind
  cases hOlder : keys.findIdx? (· == k') with
  | some i' =>
    rw [hOlder] at hFind
    cases hFind
    obtain ⟨e, he, hSlot, hChain⟩ := h.first k' _ hOlder
    refine ⟨e, he, slot_set_of_full hEmpty hSlot (Nat.succ_ne_zero _), ?_⟩
    intro e' he'
    obtain ⟨j, hItem, hOther⟩ := hChain e' he'
    exact hPasses hItem hOther
  | none =>
    have hAbsent := findIdx?_eq_none_iff.mp hOlder
    have hKey : (k == k') = true ∧ i = keys.length := by
      rw [hOlder, findIdx?_singleton] at hFind
      split at hFind <;> simp_all
    obtain rfl := eq_of_beq hKey.1
    refine ⟨d, hLt, by rw [slot_set_self (by omega), hKey.2], ?_⟩
    intro d' hd'
    obtain ⟨b, hb⟩ := slot_isSome (Nat.zero_lt_of_lt hLt) (hash k) d'
    cases b with
    | zero => exact absurd hb (hBefore d' hd')
    | succ j =>
      refine hPasses hb ?_
      rw [beq_eq_false_iff_ne]
      intro hHere
      have hDiffer := hAbsent k (mem_of_getElem? hHere)
      simp at hDiffer

/-- Where an item is put that is not there yet. -/
theorem insert_place (h : Valid hash keys buckets) (hRoom : keys.length < buckets.length) (k : K)
    (rest : List K) (stop : Nat → Bool) (hNew : ∀ i < keys.length, stop i = false) :
    ∃ d < buckets.length, slot buckets (hash k) d = some 0 ∧
      (∀ d' < d, slot buckets (hash k) d' ≠ some 0) ∧
      insert hash stop (keys ++ k :: rest) buckets keys.length =
        some (buckets.set ((hash k + d) % buckets.length) (keys.length + 1)) := by
  have hLength : 0 < buckets.length := by omega
  obtain ⟨d, hLt, hProbe, hStop, hBefore⟩ := probe_spec stop
    (Nat.mod_lt (hash k) hLength) (h.empty_mem hRoom)
  simp only [slot_mod] at hStop hBefore
  rw [Nat.mod_add_mod] at hProbe
  refine ⟨d, hLt, ?_, ?_, ?_⟩
  · obtain ⟨b, hb⟩ := slot_isSome hLength (hash k) d
    cases b with
    | zero => exact hb
    | succ i =>
      -- a full bucket holds an older item
      have hOld := h.bounds (i + 1) (mem_of_getElem? hb)
      exact absurd ⟨i, hb, hNew i (by omega)⟩ hStop
  · intro d' hd'
    obtain ⟨i, hItem, -⟩ := hBefore d' hd'
    rw [hItem]
    intro hZero
    cases hZero
  · unfold insert
    rw [getElem?_append_right (Nat.le_refl _), Nat.sub_self, getElem?_cons_zero]
    dsimp only
    rw [hProbe]
    rfl

/-- **Adding an item.** -/
theorem insert_valid (h : Valid hash keys buckets) (hRoom : keys.length < buckets.length) (k : K)
    (rest : List K) (stop : Nat → Bool) (hNew : ∀ i < keys.length, stop i = false) :
    ∃ buckets', insert hash stop (keys ++ k :: rest) buckets keys.length = some buckets' ∧
      Valid hash (keys ++ [k]) buckets' ∧ buckets'.length = buckets.length := by
  obtain ⟨d, hLt, hEmpty, hBefore, hInsert⟩ := insert_place h hRoom k rest stop hNew
  exact ⟨_, hInsert, h.set hLt hEmpty hBefore, length_set⟩

theorem insert_firstValid [BEq K] [LawfulBEq K] (h : FirstValid hash keys buckets)
    (hRoom : keys.length < buckets.length) (k : K) (rest : List K) (stop : Nat → Bool)
    (hNew : ∀ i < keys.length, stop i = false) :
    ∃ buckets', insert hash stop (keys ++ k :: rest) buckets keys.length = some buckets' ∧
      FirstValid hash (keys ++ [k]) buckets' ∧ buckets'.length = buckets.length := by
  obtain ⟨d, hLt, hEmpty, hBefore, hInsert⟩ := insert_place h.toValid hRoom k rest stop hNew
  exact ⟨_, hInsert, h.set hLt hEmpty hBefore, length_set⟩

theorem insert_of_present (h : Valid hash keys buckets) (hRoom : keys.length < buckets.length)
    {i : Nat} {k : K} (hKey : keys[i]? = some k) :
    insert hash (· == i) keys buckets i = some buckets := by
  have hLength : 0 < buckets.length := by omega
  obtain ⟨d, -, hProbe, hStop, hBefore⟩ := probe_spec (· == i)
    (Nat.mod_lt (hash k) hLength) (h.empty_mem hRoom)
  simp only [slot_mod] at hStop hBefore
  rw [Nat.mod_add_mod] at hProbe
  obtain ⟨d', -, hSlot, hChain⟩ := h.chains i k hKey
  have hFound : slot buckets (hash k) d = some (i + 1) := by
    rcases Nat.lt_trichotomy d' d with hLt | rfl | hGt
    · obtain ⟨j, hItem, hOther⟩ := hBefore d' hLt
      rw [hSlot] at hItem
      cases hItem
      simp at hOther
    · exact hSlot
    · obtain ⟨b, hb⟩ := slot_isSome hLength (hash k) d
      cases b with
      | zero => exact absurd hb (hChain d hGt)
      | succ j =>
        have hSame : j = i := by
          by_contra hNe
          exact hStop ⟨j, hb, beq_eq_false_iff_ne.mpr hNe⟩
        rw [hb, hSame]
  unfold insert
  rw [hKey]
  dsimp only
  rw [hProbe, Option.map_some]
  obtain ⟨hLt, hGet⟩ := List.getElem_of_getElem? hFound
  rw [← hGet, List.set_getElem_self]

/-- **Building the table anew.** -/
theorem rehash_firstValid [BEq K] [LawfulBEq K] (hash : K → Nat) (keys : List K) (size : Nat)
    {count : Nat} (hCount : count ≤ keys.length) (hRoom : count ≤ size) :
    ∃ buckets', rehash hash keys size count = some buckets' ∧
      FirstValid hash (keys.take count) buckets' ∧ buckets'.length = size := by
  induction count with
  | zero =>
    refine ⟨_, rfl, ?_, length_replicate⟩
    exact (valid_replicate size).firstValid nodup_nil
  | succ count ih =>
    obtain ⟨buckets, hBuckets, hValid, hSize⟩ := ih (by omega) (by omega)
    have hTake : (keys.take count).length = count := by
      rw [length_take]
      omega
    have hSplit : keys.take count ++ keys[count] :: keys.drop (count + 1) = keys := by
      rw [← drop_eq_getElem_cons, take_append_drop]
    obtain ⟨buckets', hInsert, hValid', hSize'⟩ :=
      insert_firstValid hValid (by omega) keys[count] (keys.drop (count + 1)) _ (fun _ _ => rfl)
    rw [hSplit, hTake] at hInsert
    refine ⟨buckets', ?_, ?_, by omega⟩
    · rw [rehash, hBuckets]
      exact hInsert
    · rw [take_append_getElem] at hValid'
      exact hValid'

end Tables

end Mettle.Lib.OpenAddressing
