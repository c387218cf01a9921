import Mathlib.Data.List.Basic
import Mathlib.Data.Nat.Bitwise
import Mathlib.Algebra.Order.Ring.Nat

/-!
# Mettle — laying areas out one behind the other

Areas with a size and an alignment are placed in order, each at the next multiple of its
alignment. The numbers are unbounded here; `wrappedFrom` places the same areas with every sum
taken modulo a width, and agrees as long as the end fits.
-/

namespace Mettle.Lib

-- ---
-- Rounding
-- ---

/-- The bytes that are missing to the next multiple of `a`. -/
def padding (n a : Nat) : Nat := (a - n % a) % a

/-- The next multiple of `a`. -/
def roundUp (n a : Nat) : Nat := n + padding n a

theorem le_roundUp (n a : Nat) : n ≤ roundUp n a := Nat.le_add_right n _

variable {a : Nat} (n : Nat)

theorem dvd_roundUp (ha : 0 < a) : a ∣ roundUp n a := by
  have hLess := Nat.mod_lt n ha
  rw [Nat.dvd_iff_mod_eq_zero, roundUp, padding]
  by_cases hZero : n % a = 0
  · rw [hZero, Nat.sub_zero, Nat.mod_self, Nat.add_zero, hZero]
  · rw [Nat.mod_eq_of_lt (by omega : a - n % a < a), Nat.add_mod,
      Nat.mod_eq_of_lt (by omega : a - n % a < a), Nat.add_sub_cancel' hLess.le, Nat.mod_self]

theorem roundUp_lt (ha : 0 < a) : roundUp n a < n + a :=
  Nat.add_lt_add_left (Nat.mod_lt _ ha) n

theorem roundUp_eq_div (ha : 0 < a) : roundUp n a = (n + (a - 1)) / a * a := by
  obtain ⟨k, hk⟩ := dvd_roundUp n ha
  have hLow := le_roundUp n a
  have hHigh := roundUp_lt n ha
  have hDiv : (n + (a - 1)) / a = k := by
    refine Nat.div_eq_of_lt_le ?_ ?_
    · rw [Nat.mul_comm]; omega
    · rw [Nat.succ_mul, Nat.mul_comm]; omega
  rw [hDiv, hk, Nat.mul_comm]

/-- `x & ~(2^k - 1)` on words of `w` bits. -/
def maskDown (w x a : Nat) : Nat := x &&& (2 ^ w - 1 - (a - 1))

theorem maskDown_le (w x a : Nat) : maskDown w x a ≤ x := Nat.and_le_left

theorem maskDown_eq {w x k : Nat} (hx : x < 2 ^ w) (hk : k ≤ w) :
    maskDown w x (2 ^ k) = x / 2 ^ k * 2 ^ k := by
  have hMask : 2 ^ w - 1 - (2 ^ k - 1) = (2 ^ (w - k) - 1) * 2 ^ k := by
    have hPow : 2 ^ w = 2 ^ (w - k) * 2 ^ k := by rw [← Nat.pow_add, Nat.sub_add_cancel hk]
    have hPos := Nat.two_pow_pos k
    rw [Nat.sub_mul, Nat.one_mul, ← hPow]
    omega
  rw [maskDown, hMask]
  refine Nat.eq_of_testBit_eq fun i => ?_
  rw [Nat.testBit_and, Nat.testBit_mul_two_pow, Nat.testBit_mul_two_pow,
    Nat.testBit_div_two_pow, Nat.testBit_two_pow_sub_one]
  by_cases hLow : k ≤ i
  · simp only [hLow, decide_true, Bool.true_and, Nat.sub_add_cancel hLow]
    by_cases hHigh : i < w
    · simp [show i - k < w - k by omega]
    · rw [Nat.testBit_lt_two_pow (Nat.lt_of_lt_of_le hx
        (Nat.pow_le_pow_right (by decide) (Nat.le_of_not_lt hHigh))), Bool.false_and]
  · simp [hLow]

-- ---
-- Areas and their offsets
-- ---

/-- The size and the alignment of an area. -/
structure Extent where
  size : Nat
  alignment : Nat
  deriving DecidableEq

/-- The offsets of the areas, the first at or behind `start`. -/
def offsetsFrom : Nat → List Extent → List Nat
  | _, [] => []
  | start, e :: es =>
    roundUp start e.alignment :: offsetsFrom (roundUp start e.alignment + e.size) es

/-- The end of the last area. -/
def endFrom : Nat → List Extent → Nat
  | start, [] => start
  | start, e :: es => endFrom (roundUp start e.alignment + e.size) es

/-- Every offset is aligned, the areas lie in order and do not overlap, and all of them end
before `last`. -/
structure Placed (extents : List Extent) (offsets : List Nat) (last : Nat) : Prop where
  length_eq : offsets.length = extents.length
  aligned : ∀ (i : Nat) (e : Extent) (o : Nat),
    extents[i]? = some e → offsets[i]? = some o → e.alignment ∣ o
  ordered : ∀ (i j : Nat) (e : Extent) (o o' : Nat), i < j →
    extents[i]? = some e → offsets[i]? = some o → offsets[j]? = some o' → o + e.size ≤ o'
  inside : ∀ (i : Nat) (e : Extent) (o : Nat),
    extents[i]? = some e → offsets[i]? = some o → o + e.size ≤ last

variable (start : Nat)

theorem le_endFrom (extents : List Extent) : start ≤ endFrom start extents := by
  induction extents generalizing start with
  | nil => exact le_refl start
  | cons e es ih =>
    exact (le_roundUp start e.alignment).trans ((Nat.le_add_right _ _).trans (ih _))

variable {extents : List Extent}

theorem le_of_mem_offsetsFrom {start o : Nat} (h : o ∈ offsetsFrom start extents) : start ≤ o := by
  induction extents generalizing start with
  | nil => cases h
  | cons e es ih =>
    have hStep := le_roundUp start e.alignment
    rcases List.mem_cons.mp h with rfl | hRest
    · exact hStep
    · exact hStep.trans ((Nat.le_add_right _ _).trans (ih hRest))

theorem length_offsetsFrom (extents : List Extent) :
    (offsetsFrom start extents).length = extents.length := by
  induction extents generalizing start with
  | nil => rfl
  | cons e es ih => simp [offsetsFrom, ih]

theorem placed_offsetsFrom (extents : List Extent) (hPos : ∀ e ∈ extents, 0 < e.alignment) :
    Placed extents (offsetsFrom start extents) (endFrom start extents) := by
  induction extents generalizing start with
  | nil => exact ⟨rfl, nofun, nofun, nofun⟩
  | cons e es ih =>
    have hRest := ih (roundUp start e.alignment + e.size)
      fun e' hMem => hPos e' (List.mem_cons_of_mem e hMem)
    refine ⟨length_offsetsFrom start (e :: es), ?_, ?_, ?_⟩
    · intro i e' o he ho
      cases i with
      | zero =>
        obtain rfl : e = e' := Option.some.inj he
        obtain rfl : roundUp start e.alignment = o := Option.some.inj ho
        exact dvd_roundUp start (hPos e List.mem_cons_self)
      | succ i => exact hRest.aligned i e' o he ho
    · intro i j e' o o' hLess he ho ho'
      obtain ⟨j, rfl⟩ : ∃ j', j = j' + 1 := ⟨j - 1, by omega⟩
      cases i with
      | zero =>
        obtain rfl : e = e' := Option.some.inj he
        obtain rfl : roundUp start e.alignment = o := Option.some.inj ho
        exact le_of_mem_offsetsFrom (List.mem_of_getElem? ho')
      | succ i => exact hRest.ordered i j e' o o' (by omega) he ho ho'
    · intro i e' o he ho
      cases i with
      | zero =>
        obtain rfl : e = e' := Option.some.inj he
        obtain rfl : roundUp start e.alignment = o := Option.some.inj ho
        exact le_endFrom _ es
      | succ i => exact hRest.inside i e' o he ho

theorem Placed.mono {offsets : List Nat} {last last' : Nat} (h : Placed extents offsets last)
    (hLe : last ≤ last') : Placed extents offsets last' :=
  { h with inside := fun i e o he ho => (h.inside i e o he ho).trans hLe }

-- ---
-- Wrapped sums
-- ---

/-- The offsets and the end, with every sum taken modulo `m`. -/
def wrappedFrom (m : Nat) : Nat → List Extent → List Nat × Nat
  | start, [] => ([], start)
  | start, e :: es =>
    let offset := (start + padding start e.alignment) % m
    let rest := wrappedFrom m ((offset + e.size) % m) es
    (offset :: rest.1, rest.2)

theorem wrappedFrom_eq {m start : Nat} (hFits : endFrom start extents < m) :
    wrappedFrom m start extents = (offsetsFrom start extents, endFrom start extents) := by
  induction extents generalizing start with
  | nil => rfl
  | cons e es ih =>
    have hEnd : roundUp start e.alignment + e.size < m := (le_endFrom _ es).trans_lt hFits
    have hOffset : (start + padding start e.alignment) % m = roundUp start e.alignment :=
      Nat.mod_eq_of_lt ((Nat.le_add_right _ _).trans_lt hEnd)
    simp only [wrappedFrom, hOffset, Nat.mod_eq_of_lt hEnd, ih hFits]
    rfl

end Mettle.Lib
