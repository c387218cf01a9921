import Mathlib.Data.List.GetD
import Mathlib.Data.Fin.Basic
import Mettle.Linker.SymbolResolve

/-!
# Mettle — section merging loses and overlaps nothing

`link_resolution_merge_sections` appends the object sections one by one. This
module states what a finished merge should look like (`MergedExactly`): every
included section has a contribution, aligned, at least as large as the section's
raw bytes and virtual size, inside the merged section, disjoint from the other
contributions, and holding the raw bytes followed by zeros.

The merge reserves room only for the raw bytes of an initialised section, so the
property fails for one whose estimated size exceeds its raw bytes. `SectionFits`
names the sections for which the reserved room is the estimated size.
-/

namespace Mettle.Linker

open Mettle.Lib List Option

/-! ## Alignment -/

theorem le_linkerAlignUp (value alignment : Nat) : value ≤ linkerAlignUp value alignment := by
  unfold linkerAlignUp
  by_cases h : alignment = 0
  · rw [if_pos h]
  · rw [if_neg h]
    have hAnd := Nat.and_le_right (n := value + alignment - 1) (m := alignment - 1)
    omega

theorem dvd_linkerAlignUp (value n : Nat) : 2 ^ n ∣ linkerAlignUp value (2 ^ n) := by
  unfold linkerAlignUp
  rw [if_neg (by positivity), Nat.and_two_pow_sub_one_eq_mod]
  exact Nat.dvd_sub_mod _

/-! ## What a finished merge should look like -/

/-- The byte at offset `i` of the loaded section: the initialised bytes, then zeros up
to the virtual size. -/
def LinkedSection.imageByte (merged : LinkedSection) (i : Nat) : Option UInt8 :=
  if i < merged.virtualSize then some (merged.data.getD i 0) else none

/-- Contribution `c` of merged section `k` stands for its object section. -/
def ContributionExact (objects : List CoffObject) (fallbackAlignment : Nat) (k : Fin 6)
    (merged : LinkedSection) (c : LinkedSectionContribution) : Prop :=
  ∃ object section_, objects[c.objectIndex]? = some object ∧
    object.sections[c.sectionIndex]? = some section_ ∧
    linkSectionIndexFromKind section_.kind = some k ∧
    linkSectionAlignment section_ fallbackAlignment ∣ c.mergedOffset ∧
    section_.sizeOfRawData ≤ c.size ∧ section_.virtualSize ≤ c.size ∧
    c.mergedOffset + c.size ≤ merged.virtualSize ∧
    ∀ j < c.size, merged.imageByte (c.mergedOffset + j) = some (section_.rawData.getD j 0)

def RangesDisjoint (a b : LinkedSectionContribution) : Prop :=
  a.mergedOffset + a.size ≤ b.mergedOffset ∨ b.mergedOffset + b.size ≤ a.mergedOffset

/-- The merge of `objects` loses and overlaps nothing. -/
structure MergedExactly (objects : List CoffObject) (fallbackAlignment : Nat)
    (sections : LinkedSections) : Prop where
  covered : ∀ o object i section_ k, objects[o]? = some object →
    object.sections[i]? = some section_ → linkSectionIndexFromKind section_.kind = some k →
    ∃ c ∈ (sections k).contributions, c.objectIndex = o ∧ c.sectionIndex = i
  exact : ∀ k, ∀ c ∈ (sections k).contributions,
    ContributionExact objects fallbackAlignment k (sections k) c
  disjoint : ∀ k, (sections k).contributions.Pairwise RangesDisjoint

variable {data raw : List UInt8} {start i o : Nat} {object : CoffObject}

/-- The room the merge reserves for the section is its estimated size: an initialised
section has raw bytes up to that size, a `.bss` section has none that are not zero, and
the alignment is a power of two, as the mask arithmetic of `linker_align_up` assumes. -/
def SectionFits (fallbackAlignment : Nat) (object : CoffObject) (i : Nat)
    (section_ : CoffSection) : Prop :=
  (∃ n, linkSectionAlignment section_ fallbackAlignment = 2 ^ n) ∧
    section_.virtualSize ≤ linkEstimateSectionSize object i ∧
    if section_.kind = .bss then
      section_.sizeOfRawData ≤ linkEstimateSectionSize object i ∧ ∀ b ∈ section_.rawData, b = 0
    else section_.sizeOfRawData = linkEstimateSectionSize object i

/-! ## One append -/

variable {c : LinkedSectionContribution} {objects : List CoffObject} {fallbackAlignment : Nat}
  {merged' : LinkedSection} {section_ : CoffSection}

section Append

variable {k : Fin 6} {merged : LinkedSection}

/-- What the merge loop keeps of merged section `k`. -/
structure MergeInv (objects : List CoffObject) (fallbackAlignment : Nat) (k : Fin 6)
    (merged : LinkedSection) : Prop where
  size_le : merged.size ≤ merged.virtualSize
  exact : ∀ c ∈ merged.contributions, ContributionExact objects fallbackAlignment k merged c
  packed : merged.contributions.Pairwise fun a b => a.mergedOffset + a.size ≤ b.mergedOffset

theorem ContributionExact.mono (hSize : merged.virtualSize ≤ merged'.virtualSize)
    (hBytes : ∀ i < merged.virtualSize, merged'.data.getD i 0 = merged.data.getD i 0)
    (h : ContributionExact objects fallbackAlignment k merged c) :
    ContributionExact objects fallbackAlignment k merged' c := by
  obtain ⟨object, section_, hObj, hSec, hKind, hAlign, hRaw, hVirt, hEnd, hImage⟩ := h
  refine ⟨object, section_, hObj, hSec, hKind, hAlign, hRaw, hVirt, by omega, ?_⟩
  intro j hj
  have hOld := hImage j hj
  rw [LinkedSection.imageByte, if_pos (by omega)] at hOld ⊢
  rw [hBytes _ (by omega)]
  exact hOld

theorem getD_grow_of_lt (hLen : data.length ≤ start) (hi : i < start) :
    (data.take start ++ List.replicate (start - data.length) 0 ++ raw).getD i 0 =
      data.getD i 0 := by
  rw [take_of_length_le hLen, append_assoc]
  by_cases hData : i < data.length
  · rw [getD_append _ _ _ _ hData]
  · rw [getD_append_right _ _ _ _ (by omega), getD_append _ _ _ _ (by
      rw [length_replicate]; omega)]
    rw [getD_replicate _ (by omega), getD_eq_default _ _ (by omega)]

theorem getD_grow_at (hLen : data.length ≤ start) (j : Nat) :
    (data.take start ++ List.replicate (start - data.length) 0 ++ raw).getD (start + j) 0 =
      raw.getD j 0 := by
  have hPre : (data.take start ++ replicate (start - data.length) 0).length = start := by
    rw [take_of_length_le hLen, length_append, length_replicate]
    omega
  rw [getD_append_right _ _ _ _ (by omega), hPre, Nat.add_sub_cancel_left]

theorem length_grow (hLen : data.length ≤ start) :
    (data.take start ++ List.replicate (start - data.length) 0 ++ raw).length =
      start + raw.length := by
  rw [take_of_length_le hLen]
  simp only [length_append, length_replicate]
  omega

theorem MergeInv.append (hInv : MergeInv objects fallbackAlignment k merged)
    (hContribs : merged'.contributions = merged.contributions ++ [c])
    (hSizeLe : merged'.size ≤ merged'.virtualSize)
    (hGrow : merged.virtualSize ≤ merged'.virtualSize)
    (hBytes : ∀ i < merged.virtualSize, merged'.data.getD i 0 = merged.data.getD i 0)
    (hStart : merged.virtualSize ≤ c.mergedOffset)
    (hExact : ContributionExact objects fallbackAlignment k merged' c) :
    MergeInv objects fallbackAlignment k merged' := by
  refine ⟨hSizeLe, ?_, ?_⟩
  · intro c' hc'
    rw [hContribs] at hc'
    rcases mem_append.mp hc' with hOld | hNew
    · exact (hInv.exact c' hOld).mono hGrow hBytes
    · rw [mem_singleton.mp hNew]
      exact hExact
  · rw [hContribs, pairwise_append]
    refine ⟨hInv.packed, pairwise_singleton _ _, ?_⟩
    intro a ha b hb
    rw [mem_singleton.mp hb]
    obtain ⟨_, _, _, _, _, _, _, _, hEnd, _⟩ := hInv.exact a ha
    exact hEnd.trans hStart

theorem contributions_linkMergeInto :
    (linkMergeInto fallbackAlignment o object i section_ merged).contributions =
      merged.contributions ++
        [⟨o, i, linkerAlignUp merged.virtualSize (linkSectionAlignment section_ fallbackAlignment),
          linkEstimateSectionSize object i, linkSectionAlignment section_ fallbackAlignment⟩] := by
  rfl

/-- **One append keeps the invariant** when the appended section fits. -/
theorem mergeInv_linkMergeInto
    (hInv : MergeInv objects fallbackAlignment k merged) (hObj : objects[o]? = some object)
    (hSec : object.sections[i]? = some section_)
    (hKind : linkSectionIndexFromKind section_.kind = some k)
    (hFits : SectionFits fallbackAlignment object i section_) :
    MergeInv objects fallbackAlignment k
      (linkMergeInto fallbackAlignment o object i section_ merged) := by
  obtain ⟨⟨n, hPow⟩, hVirt, hRoom⟩ := hFits
  set start := linkerAlignUp merged.virtualSize (linkSectionAlignment section_ fallbackAlignment)
    with hStart
  set size := linkEstimateSectionSize object i with hSize
  have hStartLe : merged.virtualSize ≤ start := le_linkerAlignUp _ _
  have hAligned : linkSectionAlignment section_ fallbackAlignment ∣ start := by
    rw [hStart, hPow]
    exact dvd_linkerAlignUp _ n
  have hDataLe : merged.data.length ≤ merged.virtualSize := hInv.size_le
  by_cases hBss : section_.kind = .bss
  · -- uninitialised: only the virtual size grows, and reads past the data are zero
    rw [if_pos hBss] at hRoom
    obtain ⟨hRaw, hZero⟩ := hRoom
    have hData : (linkMergeInto fallbackAlignment o object i section_ merged).data =
        merged.data := by
      simp [linkMergeInto, hBss]
    have hVirtual : (linkMergeInto fallbackAlignment o object i section_ merged).virtualSize =
        max merged.virtualSize (start + size) := by
      simp [linkMergeInto, hBss, ← hStart, ← hSize]
    refine hInv.append contributions_linkMergeInto ?_ ?_ ?_ hStartLe ?_
    · rw [LinkedSection.size, hData, hVirtual]
      omega
    · rw [hVirtual]
      exact le_max_left _ _
    · intro p _
      rw [hData]
    · refine ⟨object, section_, hObj, hSec, hKind, hAligned, hRaw, hVirt, ?_, ?_⟩
      · rw [hVirtual]
        exact le_max_right _ _
      · intro j (hj : j < size)
        show LinkedSection.imageByte _ (start + j) = _
        have hZeroAt : section_.rawData.getD j 0 = 0 := by
          by_cases hjr : j < section_.rawData.length
          · rw [getD_eq_getElem _ _ hjr]
            exact hZero _ (getElem_mem hjr)
          · exact getD_eq_default _ _ (by omega)
        rw [LinkedSection.imageByte, hVirtual, if_pos (by omega), hData, hZeroAt,
          getD_eq_default _ _ (by omega)]
  · -- initialised: the data grows to the end of the raw bytes
    rw [if_neg hBss] at hRoom
    have hRawLen : section_.rawData.length = size := hRoom
    have hData : (linkMergeInto fallbackAlignment o object i section_ merged).data =
        merged.data.take start ++ replicate (start - merged.data.length) 0 ++
          section_.rawData := by
      simp [linkMergeInto, hBss, ← hStart]
    have hLen : (linkMergeInto fallbackAlignment o object i section_ merged).data.length =
        start + section_.rawData.length := by
      rw [hData]
      exact length_grow (by omega)
    have hVirtual : (linkMergeInto fallbackAlignment o object i section_ merged).virtualSize =
        start + section_.rawData.length := by
      have hMax : (linkMergeInto fallbackAlignment o object i section_ merged).virtualSize =
          max merged.virtualSize
            (linkMergeInto fallbackAlignment o object i section_ merged).data.length := by
        simp [linkMergeInto, hBss]
      omega
    refine hInv.append contributions_linkMergeInto ?_ ?_ ?_ hStartLe ?_
    · rw [LinkedSection.size, hLen, hVirtual]
    · omega
    · intro p hp
      rw [hData]
      exact getD_grow_of_lt (by omega) (by omega)
    · refine ⟨object, section_, hObj, hSec, hKind, hAligned, hRoom.le, hVirt, ?_, ?_⟩
      · rw [hVirtual, hRawLen]
      · intro j (hj : j < size)
        show LinkedSection.imageByte _ (start + j) = _
        rw [LinkedSection.imageByte, hVirtual, if_pos (by omega), hData, getD_grow_at (by omega) j]

end Append

/-! ## The loops -/

section Loops

def MergeInvAll (objects : List CoffObject) (fallbackAlignment : Nat)
    (sections : LinkedSections) : Prop :=
  ∀ k, MergeInv objects fallbackAlignment k (sections k)

def Extends (sections sections' : LinkedSections) : Prop :=
  ∀ k, ∀ c ∈ (sections k).contributions, c ∈ (sections' k).contributions

theorem Extends.trans {a b c : LinkedSections} (hab : Extends a b) (hbc : Extends b c) :
    Extends a c :=
  fun k x hx => hbc k x (hab k x hx)

theorem mergeInv_linkMergeObjectSections (hObj : objects[o]? = some object) (hFits : ∀ i section_,
      object.sections[i]? = some section_ → linkSectionIndexFromKind section_.kind ≠ none →
      SectionFits fallbackAlignment object i section_) :
    ∀ (rest : List CoffSection) (i : Nat) (sections : LinkedSections),
      object.sections.drop i = rest → MergeInvAll objects fallbackAlignment sections →
      MergeInvAll objects fallbackAlignment
          (linkMergeObjectSections fallbackAlignment o object rest i sections).1 ∧
        Extends sections (linkMergeObjectSections fallbackAlignment o object rest i sections).1 ∧
        ∀ i' section_ k, i ≤ i' → object.sections[i']? = some section_ →
          linkSectionIndexFromKind section_.kind = some k →
          ∃ c ∈ ((linkMergeObjectSections fallbackAlignment o object rest i sections).1
            k).contributions, c.objectIndex = o ∧ c.sectionIndex = i' := by
  intro rest
  induction rest with
  | nil =>
    intro i sections hDrop hInv
    refine ⟨hInv, fun _ _ hc => hc, ?_⟩
    intro i' section_ k hi hSec _
    rw [getElem?_of_drop_eq_nil hDrop hi] at hSec
    cases hSec
  | cons head rest ih =>
    intro i sections hDrop hInv
    obtain ⟨hHead, hRest⟩ := drop_eq_cons hDrop
    cases hKind : linkSectionIndexFromKind head.kind with
    | none =>
      obtain ⟨hInv', hExt, hCov⟩ := ih (i + 1) sections hRest hInv
      simp only [linkMergeObjectSections, hKind]
      refine ⟨hInv', hExt, ?_⟩
      intro i' section_ k hi hSec hK
      rcases Nat.eq_or_lt_of_le hi with rfl | hlt
      · rw [hHead, some.injEq] at hSec
        subst hSec
        rw [hKind] at hK
        cases hK
      · exact hCov i' section_ k hlt hSec hK
    | some k₀ =>
      set merged := linkMergeInto fallbackAlignment o object i head (sections k₀) with hMerged
      have hStep : MergeInvAll objects fallbackAlignment (Function.update sections k₀ merged) := by
        intro k
        by_cases hk : k = k₀
        · subst hk
          rw [Function.update_self]
          exact mergeInv_linkMergeInto (hInv k) hObj hHead hKind
            (hFits i head hHead (by rw [hKind]; exact some_ne_none _))
        · rw [Function.update_of_ne hk]
          exact hInv k
      have hGrow : Extends sections (Function.update sections k₀ merged) := by
        intro k c hc
        by_cases hk : k = k₀
        · subst hk
          rw [Function.update_self, hMerged, contributions_linkMergeInto]
          exact mem_append_left _ hc
        · rwa [Function.update_of_ne hk]
      obtain ⟨hInv', hExt, hCov⟩ := ih (i + 1) _ hRest hStep
      simp only [linkMergeObjectSections, hKind, ← hMerged]
      refine ⟨hInv', hGrow.trans hExt, ?_⟩
      intro i' section_ k hi hSec hK
      rcases Nat.eq_or_lt_of_le hi with rfl | hlt
      · rw [hHead, some.injEq] at hSec
        subst hSec
        rw [hKind, some.injEq] at hK
        subst hK
        refine ⟨⟨o, i, linkerAlignUp (sections k₀).virtualSize
          (linkSectionAlignment head fallbackAlignment), linkEstimateSectionSize object i,
          linkSectionAlignment head fallbackAlignment⟩, hExt k₀ _ ?_, rfl, rfl⟩
        rw [Function.update_self, hMerged, contributions_linkMergeInto]
        exact mem_append_right _ (mem_singleton_self _)
      · exact hCov i' section_ k hlt hSec hK

theorem mergeInv_linkMergeObjects
    (hFits : ∀ object ∈ objects, ∀ i section_, object.sections[i]? = some section_ →
      linkSectionIndexFromKind section_.kind ≠ none →
      SectionFits fallbackAlignment object i section_) :
    ∀ (rest : List CoffObject) (o : Nat) (sections : LinkedSections),
      objects.drop o = rest → MergeInvAll objects fallbackAlignment sections →
      MergeInvAll objects fallbackAlignment (linkMergeObjects fallbackAlignment rest o sections).1 ∧
        Extends sections (linkMergeObjects fallbackAlignment rest o sections).1 ∧
        ∀ o' object i section_ k, o ≤ o' → objects[o']? = some object →
          object.sections[i]? = some section_ →
          linkSectionIndexFromKind section_.kind = some k →
          ∃ c ∈ ((linkMergeObjects fallbackAlignment rest o sections).1 k).contributions,
            c.objectIndex = o' ∧ c.sectionIndex = i := by
  intro rest
  induction rest with
  | nil =>
    intro o sections hDrop hInv
    refine ⟨hInv, fun _ _ hc => hc, ?_⟩
    intro o' object i section_ k ho hObj _ _
    rw [getElem?_of_drop_eq_nil hDrop ho] at hObj
    cases hObj
  | cons head rest ih =>
    intro o sections hDrop hInv
    obtain ⟨hHead, hRest⟩ := drop_eq_cons hDrop
    obtain ⟨hInner, hExtInner, hCovInner⟩ :=
      mergeInv_linkMergeObjectSections hHead (hFits head (mem_of_getElem? hHead))
        head.sections 0 sections drop_zero hInv
    obtain ⟨hInv', hExt, hCov⟩ := ih (o + 1) _ hRest hInner
    refine ⟨hInv', hExtInner.trans hExt, ?_⟩
    intro o' object i section_ k ho hObj hSec hK
    rcases Nat.eq_or_lt_of_le ho with rfl | hlt
    · rw [hHead, some.injEq] at hObj
      subst hObj
      obtain ⟨c, hc, hIdx⟩ := hCovInner i section_ k (Nat.zero_le i) hSec hK
      exact ⟨c, hExt k c hc, hIdx⟩
    · exact hCov o' object i section_ k hlt hObj hSec hK

theorem mergeInv_init : MergeInvAll objects fallbackAlignment linkResolutionInitSections := by
  intro k
  refine ⟨Nat.zero_le _, ?_, List.Pairwise.nil⟩
  intro c hc
  cases hc

end Loops

/-- **A merge whose included sections all fit is exact.** Every included section is
covered by an aligned contribution that holds its bytes followed by zeros, inside the
merged section and disjoint from every other contribution. -/
theorem mergedExactly_of_sectionFits (objects : List CoffObject) (fallbackAlignment : Nat)
    (hFits : ∀ object ∈ objects, ∀ i section_, object.sections[i]? = some section_ →
      linkSectionIndexFromKind section_.kind ≠ none →
      SectionFits fallbackAlignment object i section_) :
    MergedExactly objects fallbackAlignment
      (linkResolutionMergeSections objects fallbackAlignment).1 := by
  obtain ⟨hInv, -, hCov⟩ := mergeInv_linkMergeObjects hFits objects 0 linkResolutionInitSections
    drop_zero mergeInv_init
  refine ⟨?_, fun k => (hInv k).exact, ?_⟩
  · intro o object i section_ k hObj hSec hKind
    exact hCov o object i section_ k (Nat.zero_le o) hObj hSec hKind
  · intro k
    exact (hInv k).packed.imp fun h => Or.inl h

/-- An object with two code bytes and eight bytes of `.bss`. -/
def codeAndBssObject : CoffObject :=
  { sections :=
      [⟨cLit ".text", .text, 0, 0x60000020, [0x90, 0xC3], []⟩,
        ⟨cLit ".bss", .bss, 8, 0xC0000080, [], []⟩]
    symbols := [] }

theorem mergedExactly_codeAndBss : MergedExactly [codeAndBssObject, codeAndBssObject] 16
      (linkResolutionMergeSections [codeAndBssObject, codeAndBssObject] 16).1 := by
  refine mergedExactly_of_sectionFits _ _ ?_
  intro object hObj i section_ hSec _
  have hObject : object = codeAndBssObject := by simpa using hObj
  subst hObject
  match i with
  | 0 =>
    obtain rfl : _ = section_ := some.inj hSec
    exact ⟨⟨4, by decide +kernel⟩, by decide +kernel, by decide +kernel⟩
  | 1 =>
    obtain rfl : _ = section_ := some.inj hSec
    exact ⟨⟨4, by decide +kernel⟩, by decide +kernel, by decide +kernel⟩
  | i + 2 => simp [codeAndBssObject] at hSec

/-- A `.data` section whose virtual size is larger than its three raw bytes. -/
def virtualTailObject : CoffObject :=
  { sections := [⟨cLit ".data", .data, 8, 0xC0000040, [1, 2, 3], []⟩]
    symbols := [] }

/-- The tail of an initialised section past its raw bytes is not reserved: the eight-byte
contribution at offset 0 lies in a merged section of three bytes. -/
theorem not_mergedExactly_virtualTail : ¬ MergedExactly [virtualTailObject] 16
      (linkResolutionMergeSections [virtualTailObject] 16).1 := by
  intro h
  obtain ⟨_, _, _, _, _, _, _, _, hEnd, _⟩ := h.exact 2 ⟨0, 0, 0, 8, 16⟩ (by decide +kernel)
  exact absurd hEnd (by decide +kernel)

end Mettle.Linker
