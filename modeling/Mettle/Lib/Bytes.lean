import Mathlib.Data.List.TakeDrop
import Mathlib.Data.List.Basic
import Mathlib.Tactic.Linarith
import Mathlib.Tactic.Ring

/-!
# Mettle — little-endian bytes, slices and patches

The byte-level vocabulary of the object-file modules, over plain lists: the
little-endian encoding of a number, reading a range out of a buffer, and
overwriting a range of a buffer in place.
-/

namespace Mettle.Lib

open List

/-! ## Little-endian numbers -/

/-- The low `n` bytes of `v`, least significant first. -/
def leBytes : Nat → Nat → List UInt8
  | 0, _ => []
  | n + 1, v => UInt8.ofNat v :: leBytes n (v / 256)

/-- The number a little-endian byte string denotes. -/
def leNat : List UInt8 → Nat
  | [] => 0
  | b :: bs => b.toNat + 256 * leNat bs

@[simp] theorem length_leBytes (n v : Nat) : (leBytes n v).length = n := by
  induction n generalizing v with
  | zero => rfl
  | succ n ih => simp [leBytes, ih]

theorem leNat_leBytes (n v : Nat) : leNat (leBytes n v) = v % 256 ^ n := by
  induction n generalizing v with
  | zero => simp [leBytes, leNat, Nat.mod_one]
  | succ n ih =>
    rw [leBytes, leNat, ih]
    have hByte : (UInt8.ofNat v).toNat = v % 256 := by simp
    rw [hByte, pow_succ, Nat.mul_comm (256 ^ n) 256, Nat.mod_mul]

theorem leNat_leBytes_of_lt {n v : Nat} (hv : v < 256 ^ n) : leNat (leBytes n v) = v := by
  rw [leNat_leBytes, Nat.mod_eq_of_lt hv]

theorem leBytes_mod (n v : Nat) : leBytes n (v % 256 ^ n) = leBytes n v := by
  induction n generalizing v with
  | zero => rfl
  | succ n ih =>
    have hHead : UInt8.ofNat (v % 256 ^ (n + 1)) = UInt8.ofNat v := by
      apply UInt8.toNat.inj
      exact Nat.mod_mod_of_dvd v (dvd_pow_self 256 (Nat.succ_ne_zero n))
    have hTail : v % 256 ^ (n + 1) / 256 = v / 256 % 256 ^ n := by
      rw [pow_succ, Nat.mul_comm, Nat.mod_mul_right_div_self]
    rw [leBytes, leBytes, hHead, hTail, ih]

/-! ## Slices -/

variable {α : Type*}

/-- The `len` elements of `bs` from `off` on (fewer at the end of the buffer). -/
def slice (bs : List α) (off len : Nat) : List α := (bs.drop off).take len

theorem length_slice (bs : List α) (off len : Nat) :
    (slice bs off len).length = min len (bs.length - off) := by
  simp [slice]

variable {len : Nat}

theorem length_slice_of_le {bs : List α} {off : Nat} (h : off + len ≤ bs.length) :
    (slice bs off len).length = len := by
  rw [length_slice]
  omega

theorem getElem?_slice (bs : List α) (off len i : Nat) :
    (slice bs off len)[i]? = if i < len then bs[off + i]? else none := by
  simp [slice, getElem?_take]

theorem slice_append_at (pre mid post : List α) {off len : Nat}
    (hOff : off = pre.length) (hLen : len = mid.length) :
    slice (pre ++ mid ++ post) off len = mid := by
  subst hOff hLen
  simp [slice, append_assoc]

theorem slice_slice (bs : List α) {o l o' l' : Nat} (h : o' + l' ≤ l) :
    slice (slice bs o l) o' l' = slice bs (o + o') l' := by
  apply ext_getElem?
  intro i
  simp only [getElem?_slice]
  by_cases hi : i < l'
  · rw [if_pos hi, if_pos hi, if_pos (by omega), Nat.add_assoc]
  · rw [if_neg hi, if_neg hi]

variable {l pre : List α}

theorem slice_append_skip {off : Nat} (h : pre.length ≤ off) :
    slice (pre ++ l) off len = slice l (off - pre.length) len := by
  rw [slice, slice, drop_append, drop_eq_nil_iff.mpr h, nil_append]

theorem slice_append_in {off : Nat} (h : off + len ≤ pre.length) :
    slice (pre ++ l) off len = slice pre off len := by
  rw [slice, slice, drop_append_of_le_length (by omega),
    take_append_of_le_length (by rw [length_drop]; omega)]

theorem slice_zero_self (h : len = l.length) : slice l 0 len = l := by
  rw [slice, drop_zero, take_of_length_le (by omega)]

theorem slice_append_first {a : List α} (h : len = a.length) : slice (a ++ l) 0 len = a := by
  rw [slice_append_in (by omega), slice_zero_self h]

variable {parts : List (List α)} {i : Nat}

theorem slice_flatten {part : List α} (hPart : parts[i]? = some part) {off : Nat}
    (h : off + len ≤ part.length) :
    slice parts.flatten ((parts.take i).flatten.length + off) len = slice part off len := by
  obtain ⟨hi, rfl⟩ := List.getElem_of_getElem? hPart
  have hSplit : parts.flatten = (parts.take i).flatten ++
      (parts[i] ++ (parts.drop (i + 1)).flatten) := by
    conv_lhs => rw [← List.take_append_drop i parts, List.drop_eq_getElem_cons hi]
    rw [List.flatten_append, List.flatten_cons]
  rw [hSplit, slice_append_skip (by omega), Nat.add_sub_cancel_left, slice_append_in h]

theorem getElem?_flatten {part : List α} (hPart : parts[i]? = some part) {k : Nat}
    (h : k < part.length) : parts.flatten[(parts.take i).flatten.length + k]? = part[k]? := by
  have hSlice := congrArg (fun l => l[0]?) (slice_flatten hPart (show k + 1 ≤ part.length from h))
  simpa [getElem?_slice] using hSlice

theorem slice_region {mid post : List α} {off : Nat} (h : off + len ≤ mid.length) :
    slice (pre ++ (mid ++ post)) (pre.length + off) len = slice mid off len := by
  rw [slice_append_skip (by omega), Nat.add_sub_cancel_left, slice_append_in h]

theorem sum_take_add_le {lengths : List Nat} {length : Nat} (h : lengths[i]? = some length) :
    (lengths.take i).sum + length ≤ lengths.sum := by
  obtain ⟨hi, rfl⟩ := List.getElem_of_getElem? h
  have hSplit : lengths.sum = (lengths.take i).sum + (lengths[i] + (lengths.drop (i + 1)).sum) := by
    conv_lhs => rw [← List.take_append_drop i lengths, List.drop_eq_getElem_cons hi]
    rw [List.sum_append, List.sum_cons]
  omega

theorem length_flatten_take {w : Nat} (hWidth : ∀ part ∈ parts, part.length = w)
    (hi : i ≤ parts.length) : (parts.take i).flatten.length = i * w := by
  have hAll : ∀ n ∈ (parts.take i).map length, n = w := by
    intro n hn
    obtain ⟨part, hPart, rfl⟩ := mem_map.mp hn
    exact hWidth part (mem_of_mem_take hPart)
  rw [length_flatten, eq_replicate_of_mem hAll, sum_replicate_nat, length_map,
    length_take, Nat.min_eq_left hi]

theorem slice_record {pre post : List α} {parts : List (List α)} {w : Nat}
    (hWidth : ∀ part ∈ parts, part.length = w) {i : Nat} {part : List α}
    (hPart : parts[i]? = some part) {off len : Nat} (h : off + len ≤ w) :
    slice (pre ++ (parts.flatten ++ post)) (pre.length + (i * w + off)) len = slice part off len := by
  have hi := (List.getElem_of_getElem? hPart).1
  have hLen : part.length = w := hWidth part (List.mem_of_getElem? hPart)
  have hTotal : parts.flatten.length = parts.length * w := by
    have h := length_flatten_take hWidth (Nat.le_refl parts.length)
    rwa [List.take_length] at h
  have hRoom : i * w + w ≤ parts.length * w := by
    have h := Nat.mul_le_mul_right w (show i + 1 ≤ parts.length from hi)
    rwa [Nat.add_mul, Nat.one_mul] at h
  rw [slice_region (by omega), ← length_flatten_take hWidth hi.le, slice_flatten hPart (by omega)]

theorem drop_eq_cons {rest : List α} {a : α} (h : l.drop i = a :: rest) :
    l[i]? = some a ∧ l.drop (i + 1) = rest := by
  constructor
  · rw [← head?_drop, h, head?_cons]
  · rw [← tail_drop, h, tail_cons]

theorem getElem?_of_drop_eq_nil {j : Nat} (h : l.drop i = []) (hij : i ≤ j) : l[j]? = none :=
  getElem?_eq_none ((drop_eq_nil_iff.mp h).trans hij)

/-! ## Loops that can fail -/

theorem mapM_ok {ε β γ : Type*} {f : β → Except ε γ} :
    ∀ {l : List β} {r : List γ}, l.mapM f = .ok r →
      r.length = l.length ∧ ∀ (i : Nat) x, l[i]? = some x → ∃ y, r[i]? = some y ∧ f x = .ok y
  | [], r, h => by
    obtain rfl : [] = r := Except.ok.inj h
    exact ⟨rfl, fun i x hx => by cases hx⟩
  | x :: rest, r, h => by
    rw [mapM_cons] at h
    cases hx : f x with
    | error e =>
      rw [hx] at h
      cases h
    | ok y =>
      rw [hx] at h
      cases hRest : rest.mapM f with
      | error e =>
        rw [hRest] at h
        cases h
      | ok ys =>
        rw [hRest] at h
        obtain rfl : y :: ys = r := Except.ok.inj h
        obtain ⟨hLen, hGet⟩ := mapM_ok hRest
        refine ⟨by rw [length_cons, length_cons, hLen], ?_⟩
        intro i x' hi
        cases i with
        | zero =>
          obtain rfl : x = x' := Option.some.inj hi
          exact ⟨y, rfl, hx⟩
        | succ i => exact hGet i x' hi

theorem mapM_range_eq_ok {ε γ : Type*} {f : Nat → Except ε γ} {r : List γ} {n : Nat}
    (hLen : r.length = n) (h : ∀ (i : Nat) y, r[i]? = some y → f i = .ok y) :
    (List.range n).mapM f = .ok r := by
  subst hLen
  have hFrom : ∀ (r : List γ) (s : Nat), (∀ (i : Nat) y, r[i]? = some y → f (s + i) = .ok y) →
      (range' s r.length).mapM f = .ok r := by
    intro r
    induction r with
    | nil =>
      intro s _
      rfl
    | cons y rest ih =>
      intro s hs
      have hTail := ih (s + 1) fun i y hi => by
        rw [Nat.add_assoc, Nat.add_comm 1]
        exact hs (i + 1) y hi
      rw [length_cons, range'_succ, mapM_cons, show f s = .ok y from hs 0 y rfl, hTail]
      rfl
  rw [range_eq_range']
  exact hFrom r 0 fun i y hi => by
    rw [Nat.zero_add]
    exact h i y hi

/-! ## Patches -/

/-- `bs` with the range starting at `off` overwritten by `new`. -/
def patch (bs : List α) (off : Nat) (new : List α) : List α :=
  bs.take off ++ new ++ bs.drop (off + new.length)

section

variable {bs new : List α} {off : Nat} (h : off + new.length ≤ bs.length)
include h

theorem length_patch : (patch bs off new).length = bs.length := by
  simp only [patch, length_append, length_take, length_drop]
  omega

theorem getElem?_patch (i : Nat) : (patch bs off new)[i]? =
      if off ≤ i ∧ i < off + new.length then new[i - off]? else bs[i]? := by
  have hTake : (bs.take off).length = off := by
    rw [length_take]
    omega
  by_cases hLo : i < off
  · rw [if_neg (by omega), patch, append_assoc, getElem?_append_left (by omega),
      getElem?_take_of_lt hLo]
  · by_cases hHi : i < off + new.length
    · rw [if_pos ⟨by omega, hHi⟩, patch, append_assoc,
        getElem?_append_right (by omega), hTake, getElem?_append_left (by omega)]
    · rw [if_neg (by omega), patch, getElem?_append_right (by
        rw [length_append, hTake]; omega), getElem?_drop, length_append, hTake]
      congr 1
      omega

theorem slice_patch_self : slice (patch bs off new) off new.length = new := by
  have hTake : (bs.take off).length = off := by
    rw [length_take]
    omega
  exact slice_append_at (bs.take off) new (bs.drop (off + new.length)) hTake.symm rfl

theorem slice_patch_of_disjoint {o l : Nat} (hDisj : o + l ≤ off ∨ off + new.length ≤ o) :
    slice (patch bs off new) o l = slice bs o l := by
  apply ext_getElem?
  intro i
  rw [getElem?_slice, getElem?_slice]
  by_cases hi : i < l
  · rw [if_pos hi, if_pos hi, getElem?_patch h, if_neg (by omega)]
  · rw [if_neg hi, if_neg hi]

end

end Mettle.Lib
