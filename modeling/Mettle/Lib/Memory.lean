import Mathlib.Algebra.Group.Int.Defs
import Mathlib.Algebra.Group.Nat.Defs
import Mathlib.Data.List.Nodup
import Mathlib.Data.Nat.Basic

/-!
# Mettle — memory and moves

A memory with an address for every 64-bit word, and little-endian reads and writes of a few bytes.

And straight-line code that moves words between places: registers and words of memory alike. A move
reads a place, or has a fixed word, changes the word on its way and writes it to another place.
A piece of such code does in the middle of a sequence what it does at its start, if what it reads
is not written before it and what it writes is not written behind it.
-/

namespace Mettle.Lib

open List

-- ---
-- Byte memory
-- ---

section Memory

abbrev ByteMemory := BitVec 64 → BitVec 8

/-- The number in the `n` bytes from `a` on. -/
def readLE (memory : ByteMemory) (a : BitVec 64) : Nat → Nat
  | 0 => 0
  | n + 1 => readLE memory a n + 256 ^ n * (memory (a + BitVec.ofNat 64 n)).toNat

/-- The low `n` bytes of `v`, from `a` on. -/
def writeLE (memory : ByteMemory) (a : BitVec 64) (n v : Nat) : ByteMemory :=
  fun p => if (p - a).toNat < n then BitVec.ofNat 8 (v / 256 ^ (p - a).toNat) else memory p

variable {a : BitVec 64} {memory : ByteMemory} {n : Nat}

theorem writeLE_of_outside {p : BitVec 64} {v : Nat} (h : n ≤ (p - a).toNat) :
    writeLE memory a n v p = memory p := by
  rw [writeLE, if_neg (by omega)]

theorem writeLE_at {v k : Nat} (hk : k < n) (hn : n ≤ 2 ^ 64) :
    writeLE memory a n v (a + BitVec.ofNat 64 k) = BitVec.ofNat 8 (v / 256 ^ k) := by
  have hOffset : (a + BitVec.ofNat 64 k - a).toNat = k := by
    rw [BitVec.add_comm, BitVec.add_sub_cancel, BitVec.toNat_ofNat, Nat.mod_eq_of_lt (by omega)]
  rw [writeLE, hOffset, if_pos hk]

/-- **What was written is read back.** -/
theorem readLE_writeLE (memory : ByteMemory) (a : BitVec 64) (hn : n ≤ 2 ^ 64) (v : Nat) :
    readLE (writeLE memory a n v) a n = v % 256 ^ n := by
  suffices h : ∀ k, k ≤ n → readLE (writeLE memory a n v) a k = v % 256 ^ k from h n (Nat.le_refl n)
  intro k
  induction k with
  | zero =>
    intro _
    rw [readLE, Nat.pow_zero, Nat.mod_one]
  | succ k ih =>
    intro hk
    rw [readLE, ih (by omega), writeLE_at (by omega) hn, BitVec.toNat_ofNat]
    exact (Nat.mod_pow_succ).symm

theorem readLE_lt (memory : ByteMemory) (a : BitVec 64) (n : Nat) :
    readLE memory a n < 256 ^ n := by
  induction n with
  | zero => exact Nat.one_pos
  | succ n ih =>
    have hByte : (memory (a + BitVec.ofNat 64 n)).toNat ≤ 255 := by omega
    have hScaled := Nat.mul_le_mul_left (256 ^ n) hByte
    rw [readLE, Nat.pow_succ]
    omega

theorem readLE_mod (memory : ByteMemory) (a : BitVec 64) {k : Nat} (h : k ≤ n) :
    readLE memory a n % 256 ^ k = readLE memory a k := by
  induction n with
  | zero =>
    obtain rfl : k = 0 := by omega
    rw [Nat.pow_zero, Nat.mod_one, readLE]
  | succ n ih =>
    rcases Nat.eq_or_lt_of_le h with rfl | hLess
    · exact Nat.mod_eq_of_lt (readLE_lt memory a _)
    · have hDvd : 256 ^ k ∣ 256 ^ n * (memory (a + BitVec.ofNat 64 n)).toNat :=
        Nat.dvd_mul_right_of_dvd (Nat.pow_dvd_pow 256 (by omega)) _
      rw [readLE, Nat.add_mod, Nat.mod_eq_zero_of_dvd hDvd, Nat.add_zero, Nat.mod_mod,
        ih (by omega)]

theorem readLE_congr {other : ByteMemory}
    (h : ∀ k < n, memory (a + BitVec.ofNat 64 k) = other (a + BitVec.ofNat 64 k)) :
    readLE memory a n = readLE other a n := by
  induction n with
  | zero => rfl
  | succ n ih =>
    rw [readLE, readLE, ih fun k hk => h k (by omega), h n (Nat.lt_succ_self n)]

end Memory

-- ---
-- Moves
-- ---

/-- What a move reads. -/
inductive MoveSource (P W : Type*)
  | word (w : W)
  | place (p : P)

/-- One move. -/
structure Move (P W : Type*) where
  target : P
  source : MoveSource P W
  change : W → W := id

variable {P W : Type*} {moves before piece after : List (Move P W)} {m : Move P W} {s t : P → W}
  {p : P}

/-- The word that a move writes. -/
def Move.value (m : Move P W) (s : P → W) : W :=
  m.change (match m.source with
    | .word w => w
    | .place p => s p)

/-- The places that a sequence of moves writes. -/
def targets (moves : List (Move P W)) : List P := moves.map Move.target

@[simp] theorem targets_append : targets (before ++ after) = targets before ++ targets after :=
  map_append

@[simp] theorem mem_targets_flatMap {A : Type*} {l : List A} {f : A → List (Move P W)} :
    p ∈ targets (l.flatMap f) ↔ ∃ a ∈ l, p ∈ targets (f a) := by
  rw [targets, map_flatMap, mem_flatMap]
  rfl

variable [DecidableEq P]

/-- The moves, one after another. -/
def runMoves (moves : List (Move P W)) (s : P → W) : P → W :=
  moves.foldl (fun s m => Function.update s m.target (m.value s)) s

/-- The places that a sequence of moves reads before it writes them. -/
def places : List (Move P W) → List P
  | [] => []
  | m :: moves =>
    (match m.source with
      | .word _ => []
      | .place p => [p]) ++ (places moves).filter (· ≠ m.target)

/-- What is written by the first moves is not read from before them by the others. -/
theorem mem_places_append (h : p ∈ places (before ++ after)) :
    p ∈ places before ∨ (p ∈ places after ∧ p ∉ targets before) := by
  induction before with
  | nil => exact Or.inr ⟨h, not_mem_nil⟩
  | cons m before ih =>
    rw [cons_append, places, mem_append, mem_filter] at h
    rcases h with hSource | ⟨hRest, hNe⟩
    · exact Or.inl (mem_append_left _ hSource)
    · rcases ih hRest with hBefore | ⟨hAfter, hNot⟩
      · exact Or.inl (mem_append_right _ (mem_filter.mpr ⟨hBefore, hNe⟩))
      · refine Or.inr ⟨hAfter, ?_⟩
        rw [targets, map_cons, mem_cons, not_or]
        exact ⟨of_decide_eq_true hNe, hNot⟩

@[simp] theorem runMoves_nil : runMoves [] s = s := rfl

@[simp] theorem runMoves_cons :
    runMoves (m :: moves) s = runMoves moves (Function.update s m.target (m.value s)) := rfl

theorem runMoves_append : runMoves (before ++ after) s = runMoves after (runMoves before s) :=
  foldl_append

/-- **The frame**: a place that is not written keeps its word. -/
theorem runMoves_of_not_mem (h : p ∉ targets moves) : runMoves moves s p = s p := by
  induction moves generalizing s with
  | nil => rfl
  | cons m moves ih =>
    rw [targets, map_cons, mem_cons, not_or] at h
    rw [runMoves_cons, ih h.2, Function.update_of_ne h.1]

/-- What is written depends on what is read. -/
theorem runMoves_congr (hReads : ∀ q ∈ places moves, s q = t q) (hp : s p = t p ∨ p ∈ targets moves) :
    runMoves moves s p = runMoves moves t p := by
  induction moves generalizing s t with
  | nil =>
    rcases hp with hp | hp
    · exact hp
    · cases hp
  | cons m moves ih =>
    have hValue : m.value s = m.value t := by
      unfold Move.value
      cases hSource : m.source with
      | word w => rfl
      | place q =>
        dsimp only
        rw [hReads q]
        rw [places, hSource]
        exact mem_append_left _ (mem_singleton_self q)
    rw [runMoves_cons, runMoves_cons, hValue]
    refine ih ?_ ?_
    · intro q hq
      by_cases hTarget : q = m.target
      · rw [hTarget, Function.update_self, Function.update_self]
      · rw [Function.update_of_ne hTarget, Function.update_of_ne hTarget]
        refine hReads q (mem_append_right _ (mem_filter.mpr ⟨hq, ?_⟩))
        exact decide_eq_true hTarget
    · by_cases hTarget : p = m.target
      · left
        rw [hTarget, Function.update_self, Function.update_self]
      · rw [Function.update_of_ne hTarget, Function.update_of_ne hTarget]
        refine hp.imp_right fun hMem => ?_
        exact (mem_cons.mp hMem).resolve_left hTarget

/-- **A piece that is not disturbed** leaves in a place what it leaves there from the start. -/
theorem runMoves_undisturbed (hReads : ∀ q ∈ places piece, q ∉ targets before)
    (hBefore : p ∈ targets piece ∨ p ∉ targets before) (hAfter : p ∉ targets after) :
    runMoves (before ++ (piece ++ after)) s p = runMoves piece s p := by
  rw [runMoves_append, runMoves_append, runMoves_of_not_mem hAfter]
  refine runMoves_congr (fun q hq => runMoves_of_not_mem (hReads q hq)) ?_
  rcases hBefore with hMem | hNot
  · exact Or.inr hMem
  · exact Or.inl (runMoves_of_not_mem hNot)

end Mettle.Lib
