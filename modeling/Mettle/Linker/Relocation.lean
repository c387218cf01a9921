import Mathlib.Data.Int.ModEq
import Mettle.Linker.SymbolResolve

/-!
# Mettle — relocation application is exact

The model of `linker/relocation.c` and its correctness. Relocations are applied in
the order of the objects, their sections and the relocation tables; each one reads
its addend from the bytes it patches, computes a 64-bit value, checks that the
value fits its field and overwrites the field. The only bound on a field is the
end of the merged section it lies in.

Addresses and the patched values are 64-bit words: `toInt64` is the wrap-around of
the source's `int64_t` arithmetic.
-/

namespace Mettle.Linker

open Mettle.Lib List

/-! ## The model -/

/-- The wrap-around of `int64_t`. -/
@[irreducible] def toInt64 (x : Int) : Int := Int.bmod x (2 ^ 64)

/-- The cast `(int32_t)n` of an unsigned word. -/
@[irreducible] def toInt32 (n : Nat) : Int := Int.bmod n (2 ^ 32)

/-- The relocation types the linker supports. -/
inductive RelocationKind
  | addr64
  | addr32nb
  | rel32
  | secrel
  deriving DecidableEq

def relocationKindOf (type : Nat) : Option RelocationKind :=
  if type = COFF_RELOC_AMD64_ADDR64 then some .addr64
  else if type = COFF_RELOC_AMD64_ADDR32NB then some .addr32nb
  else if type = COFF_RELOC_AMD64_REL32 then some .rel32
  else if type = COFF_RELOC_AMD64_SECREL then some .secrel
  else none

def RelocationKind.width : RelocationKind → Nat
  | .addr64 => 8
  | .addr32nb => 4
  | .rel32 => 4
  | .secrel => 4

def RelocationKind.rangeError : RelocationKind → String
  | .addr64 => "is negative"
  | _ => "is out of range"

def RelocationKind.name : RelocationKind → String
  | .addr64 => "ADDR64"
  | .addr32nb => "ADDR32NB"
  | .rel32 => "REL32"
  | .secrel => "SECREL"

/-- The place a relocation refers to. -/
structure RelocationTarget where
  name : String
  mergedOffset : Nat
  virtualAddress : Nat
  deriving DecidableEq

/-- The sections for debuggers, by their names. -/
def relocationSectionIsDebugOnly (section_ : CoffSection) : Bool :=
  section_.name.take 6 == cLit ".debug" || section_.name.take 7 == cLit ".zdebug"

/-- The place of a symbol of an object. -/
def relocationResolveTarget (symbols : List LinkedSymbol) (input : LinkedInputObject)
    (symbolIndex : Nat) : Except String RelocationTarget :=
  match input.symbols[symbolIndex]? with
  | none =>
    .error s!"Relocation refers to symbol index {symbolIndex} outside the object symbol table"
  | some objectSymbol =>
    let name := (objectSymbol.name.map showName).getD "<unnamed>"
    if objectSymbol.isAuxiliary then
      .error s!"Relocation refers to auxiliary symbol '{name}'"
    else if objectSymbol.isDefined && objectSymbol.mergedSectionIndex.isSome then
      .ok { name, mergedOffset := objectSymbol.mergedOffset
            virtualAddress := objectSymbol.virtualAddress }
    else
      match objectSymbol.name.bind (linkResolutionFindSymbol symbols) with
      | none => .error s!"Relocation target '{name}' is unresolved"
      | some globalSymbol =>
        if globalSymbol.isDefined && globalSymbol.mergedSectionIndex.isSome then
          .ok { name, mergedOffset := globalSymbol.mergedOffset
                virtualAddress := globalSymbol.virtualAddress }
        else .error s!"Relocation target '{name}' is unresolved"

def relocationAddend (kind : RelocationKind) (data : List UInt8) (patchOffset : Nat) : Int :=
  match kind with
  | .addr64 => toInt64 (linkerReadU64 data patchOffset)
  | _ => toInt32 (linkerReadU32 data patchOffset)

/-- The value of the `switch`, in the source's 64-bit arithmetic. -/
def relocationValue (kind : RelocationKind) (imageBase : Nat) (target : RelocationTarget)
    (patchAddress : Nat) (addend : Int) : Int :=
  match kind with
  | .rel32 => toInt64 (toInt64 target.virtualAddress + addend - toInt64 (patchAddress + 4))
  | .addr64 => toInt64 (toInt64 target.virtualAddress + addend)
  | .addr32nb =>
    if imageBase ≠ 0 ∧ imageBase ≤ target.virtualAddress then
      toInt64 (toInt64 ((target.virtualAddress - imageBase : Nat) : Int) + addend)
    else toInt64 (toInt64 target.virtualAddress + addend)
  | .secrel => toInt64 (toInt64 target.mergedOffset + addend)

/-- The range check of the `switch`. -/
def relocationFits (kind : RelocationKind) (value : Int) : Bool :=
  match kind with
  | .rel32 => !(value < -2 ^ 31 || value > 2 ^ 31 - 1)
  | .addr64 => !(value < 0)
  | .addr32nb => !(value < 0 || value > 2 ^ 32 - 1)
  | .secrel => !(value < 0 || value > 2 ^ 32 - 1)

/-- The write of the `switch`. -/
def relocationWrite (kind : RelocationKind) (data : List UInt8) (patchOffset : Nat)
    (value : Int) : List UInt8 :=
  match kind with
  | .addr64 => linkerWriteU64 data patchOffset (value % 2 ^ 64).toNat
  | _ => linkerWriteU32 data patchOffset (value % 2 ^ 32).toNat

/-- One relocation with the place it patches: the body of the innermost loop. -/
structure RelocationJob where
  input : LinkedInputObject
  k : Fin 6
  sectionMergedOffset : Nat
  relocation : CoffRelocation

def RelocationJob.patchOffset (job : RelocationJob) : Nat :=
  job.sectionMergedOffset + job.relocation.virtualAddress

def RelocationJob.patchAddress (job : RelocationJob) (sections : LinkedSections) : Nat :=
  (sections job.k).virtualAddress + job.patchOffset

def linkApplyRelocation (symbols : List LinkedSymbol) (imageBase : Nat)
    (sections : LinkedSections) (job : RelocationJob) : Except String LinkedSections :=
  match relocationResolveTarget symbols job.input job.relocation.symbolTableIndex with
  | .error message => .error message
  | .ok target =>
    match relocationKindOf job.relocation.type with
    | none =>
      .error (s!"Unsupported relocation type {coffRelocationTypeName job.relocation.type} " ++
        s!"for symbol '{target.name}'")
    | some kind =>
      let merged := sections job.k
      if job.patchOffset + kind.width > merged.size then
        .error (s!"Relocation for symbol '{target.name}' writes past merged " ++
          s!"section '{merged.name}'")
      else
        let addend := relocationAddend kind merged.data job.patchOffset
        let value := relocationValue kind imageBase target (job.patchAddress sections) addend
        if relocationFits kind value then
          .ok (Function.update sections job.k
            { merged with data := relocationWrite kind merged.data job.patchOffset value })
        else
          .error s!"{kind.name} relocation for symbol '{target.name}' {kind.rangeError}"

def linkApplySectionRelocations (symbols : List LinkedSymbol) (imageBase : Nat)
    (input : LinkedInputObject) (sections : LinkedSections)
    (row : CoffSection × SectionPlacement) : Except String LinkedSections :=
  if row.1.relocations = [] then .ok sections
  else
    match row.2.mergedIndex with
    | none =>
      if relocationSectionIsDebugOnly row.1 then .ok sections
      else .error s!"Section '{showName row.1.name}' has relocations but was not merged"
    | some k =>
      row.1.relocations.foldlM (fun sections relocation =>
        linkApplyRelocation symbols imageBase sections
          ⟨input, k, row.2.mergedOffset, relocation⟩) sections

def linkApplyObjectRelocations (symbols : List LinkedSymbol) (imageBase : Nat)
    (sections : LinkedSections) (input : LinkedInputObject) : Except String LinkedSections :=
  (input.object.sections.zip input.placements).foldlM
    (linkApplySectionRelocations symbols imageBase input) sections

/-- Patches the merged sections. -/
def linkApplyRelocations (resolution : LinkResolution) (imageBase : Nat) :
    Except String LinkResolution := do
  let sections ← resolution.objects.foldlM
    (linkApplyObjectRelocations resolution.symbols imageBase) resolution.sections
  return { resolution with sections }

/-! ## What relocation should do -/

/-- The value a relocation type prescribes, as an integer: `S + A - (P + 4)`, `S + A`,
the RVA plus `A`, and the section-relative offset plus `A`. -/
def prescribedValue (kind : RelocationKind) (imageBase : Nat) (target : RelocationTarget)
    (patchAddress : Nat) (addend : Int) : Int :=
  match kind with
  | .rel32 => target.virtualAddress + addend - (patchAddress + 4)
  | .addr64 => target.virtualAddress + addend
  | .addr32nb =>
    if imageBase ≠ 0 ∧ imageBase ≤ target.virtualAddress then
      ((target.virtualAddress - imageBase : Nat) : Int) + addend
    else target.virtualAddress + addend
  | .secrel => target.mergedOffset + addend

/-- The values a field can hold: `int32`, a non-negative `int64`, `uint32`. -/
def FitsField (kind : RelocationKind) (value : Int) : Prop :=
  match kind with
  | .rel32 => -2 ^ 31 ≤ value ∧ value < 2 ^ 31
  | .addr64 => 0 ≤ value ∧ value < 2 ^ 63
  | .addr32nb => 0 ≤ value ∧ value < 2 ^ 32
  | .secrel => 0 ≤ value ∧ value < 2 ^ 32

/-- The value a patched field holds: signed for `REL32`, unsigned otherwise. -/
def fieldValue (kind : RelocationKind) (data : List UInt8) (patchOffset : Nat) : Int :=
  match kind with
  | .rel32 => toInt32 (linkerReadU32 data patchOffset)
  | .addr64 => linkerReadU64 data patchOffset
  | .addr32nb => linkerReadU32 data patchOffset
  | .secrel => linkerReadU32 data patchOffset

def relocationJobs (resolution : LinkResolution) : List RelocationJob :=
  resolution.objects.flatMap fun input =>
    (input.object.sections.zip input.placements).flatMap fun row =>
      match row.2.mergedIndex with
      | none => []
      | some k => row.1.relocations.map fun relocation => ⟨input, k, row.2.mergedOffset, relocation⟩

def RelocationJob.width (job : RelocationJob) : Nat :=
  ((relocationKindOf job.relocation.type).map RelocationKind.width).getD 0

/-- The field covers byte `i` of merged section `k`. -/
def RelocationJob.Covers (job : RelocationJob) (k : Fin 6) (i : Nat) : Prop :=
  job.k = k ∧ job.patchOffset ≤ i ∧ i < job.patchOffset + job.width

def FieldsDisjoint (a b : RelocationJob) : Prop :=
  a.k ≠ b.k ∨ a.patchOffset + a.width ≤ b.patchOffset ∨ b.patchOffset + b.width ≤ a.patchOffset

/-! ## Arithmetic of one field -/

theorem toInt64_range (x : Int) : -2 ^ 63 ≤ toInt64 x ∧ toInt64 x < 2 ^ 63 := by
  have hLo := Int.le_bmod (x := x) (m := 2 ^ 64) (by norm_num)
  have hHi := Int.bmod_lt (x := x) (m := 2 ^ 64) (by norm_num)
  unfold toInt64
  exact ⟨by omega, by omega⟩

theorem toInt32_range (n : Nat) : -2 ^ 31 ≤ toInt32 n ∧ toInt32 n < 2 ^ 31 := by
  have hLo := Int.le_bmod (x := (n : Int)) (m := 2 ^ 32) (by norm_num)
  have hHi := Int.bmod_lt (x := (n : Int)) (m := 2 ^ 32) (by norm_num)
  unfold toInt32
  exact ⟨by omega, by omega⟩

theorem relocationValue_eq (kind : RelocationKind) (imageBase : Nat) (target : RelocationTarget)
    (patchAddress : Nat) (addend : Int) :
    relocationValue kind imageBase target patchAddress addend =
      toInt64 (prescribedValue kind imageBase target patchAddress addend) := by
  cases kind with
  | rel32 =>
    simp only [relocationValue, prescribedValue, toInt64]
    rw [Int.sub_bmod_bmod, add_sub_assoc, Int.bmod_add_bmod, add_sub_assoc]
  | addr64 =>
    simp only [relocationValue, prescribedValue, toInt64]
    rw [Int.bmod_add_bmod]
  | addr32nb =>
    unfold relocationValue prescribedValue toInt64
    by_cases hBase : imageBase ≠ 0 ∧ imageBase ≤ target.virtualAddress
    · dsimp only
      rw [if_pos hBase, if_pos hBase, Int.bmod_add_bmod]
    · dsimp only
      rw [if_neg hBase, if_neg hBase, Int.bmod_add_bmod]
  | secrel =>
    simp only [relocationValue, prescribedValue, toInt64]
    rw [Int.bmod_add_bmod]

theorem relocationFits_iff (kind : RelocationKind) (x : Int) :
    relocationFits kind (toInt64 x) = true ↔ FitsField kind (toInt64 x) := by
  have hHi := (toInt64_range x).2
  cases kind with
  | rel32 =>
    simp only [relocationFits, FitsField, Bool.not_eq_true', Bool.or_eq_false_iff,
      decide_eq_false_iff_not]
    omega
  | addr64 =>
    simp only [relocationFits, FitsField, Bool.not_eq_true', decide_eq_false_iff_not]
    omega
  | addr32nb =>
    simp only [relocationFits, FitsField, Bool.not_eq_true', Bool.or_eq_false_iff,
      decide_eq_false_iff_not]
    omega
  | secrel =>
    simp only [relocationFits, FitsField, Bool.not_eq_true', Bool.or_eq_false_iff,
      decide_eq_false_iff_not]
    omega

variable {kind : RelocationKind}

/-- Below `2 ^ 63` the wrap-around is not seen: a value fits after it exactly when the
prescribed integer fits, and then the two are equal. -/
theorem toInt64_prescribed {imageBase : Nat} {target : RelocationTarget} {patchAddress : Nat}
    {addend : Int} (hS : target.virtualAddress < 2 ^ 63) (hO : target.mergedOffset < 2 ^ 63)
    (hP : patchAddress + 4 < 2 ^ 63) (hA : kind ≠ .addr64 → -2 ^ 31 ≤ addend ∧ addend < 2 ^ 31)
    (hA' : -2 ^ 63 ≤ addend ∧ addend < 2 ^ 63)
    (hFits : FitsField kind (toInt64 (prescribedValue kind imageBase target patchAddress addend))) :
    toInt64 (prescribedValue kind imageBase target patchAddress addend) =
      prescribedValue kind imageBase target patchAddress addend := by
  set v := prescribedValue kind imageBase target patchAddress addend with hv
  -- the wrap adds a multiple of `2 ^ 64`, and the value is too small for a second turn
  have hTurn : ∃ q : Int, v = toInt64 v + 2 ^ 64 * q :=
    ⟨Int.bdiv v (2 ^ 64), by rw [toInt64]; exact (Int.bmod_add_bdiv v (2 ^ 64)).symm⟩
  cases kind with
  | rel32 =>
    simp only [FitsField] at hFits
    simp only [prescribedValue] at hv
    have hA32 := hA (by decide)
    omega
  | addr64 =>
    simp only [FitsField] at hFits
    simp only [prescribedValue] at hv
    omega
  | addr32nb =>
    simp only [FitsField] at hFits
    simp only [prescribedValue] at hv
    split at hv
    · omega
    · omega
  | secrel =>
    simp only [FitsField] at hFits
    simp only [prescribedValue] at hv
    omega

/-! ## Reading and writing one field -/

variable {data : List UInt8} {off : Nat}

theorem linkerReadU32_write (hIn : off + 4 ≤ data.length) (n : Nat) :
    linkerReadU32 (linkerWriteU32 data off n) off = n % 2 ^ 32 := by
  have hLen : off + (leBytes 4 n).length ≤ data.length := by
    exact hIn
  have h := slice_patch_self hLen
  rw [length_leBytes] at h
  rw [linkerReadU32, linkerWriteU32, h, leNat_leBytes, show (256 : Nat) ^ 4 = 2 ^ 32 by norm_num]

theorem linkerReadU64_write (hIn : off + 8 ≤ data.length) (n : Nat) :
    linkerReadU64 (linkerWriteU64 data off n) off = n % 2 ^ 64 := by
  have hLen : off + (leBytes 8 n).length ≤ data.length := by
    exact hIn
  have h := slice_patch_self hLen
  rw [length_leBytes] at h
  rw [linkerReadU64, linkerWriteU64, h, leNat_leBytes, show (256 : Nat) ^ 8 = 2 ^ 64 by norm_num]

theorem relocationWrite_eq (kind : RelocationKind) (data : List UInt8) (patchOffset : Nat)
    (value : Int) :
    ∃ new : List UInt8, new.length = kind.width ∧
      relocationWrite kind data patchOffset value = patch data patchOffset new := by
  cases kind with
  | addr64 => exact ⟨_, length_leBytes 8 _, rfl⟩
  | addr32nb => exact ⟨_, length_leBytes 4 _, rfl⟩
  | rel32 => exact ⟨_, length_leBytes 4 _, rfl⟩
  | secrel => exact ⟨_, length_leBytes 4 _, rfl⟩

variable {data' : List UInt8}

theorem relocationAddend_congr (h : slice data' off kind.width = slice data off kind.width) :
    relocationAddend kind data' off = relocationAddend kind data off := by
  cases kind <;>
    simp only [relocationAddend, linkerReadU32, linkerReadU64, RelocationKind.width] at h ⊢ <;>
    rw [h]

theorem fieldValue_congr (h : slice data' off kind.width = slice data off kind.width) :
    fieldValue kind data' off = fieldValue kind data off := by
  cases kind <;>
    simp only [fieldValue, linkerReadU32, linkerReadU64, RelocationKind.width] at h ⊢ <;>
    rw [h]

theorem toInt32_word {value : Int} (hLo : -2 ^ 31 ≤ value) (hHi : value < 2 ^ 31) :
    toInt32 ((value % 2 ^ 32).toNat % 2 ^ 32) = value := by
  have hWord : (((value % 2 ^ 32).toNat % 2 ^ 32 : Nat) : Int) = value % 4294967296 := by
    omega
  have hPow : (2 : Nat) ^ 32 = 4294967296 := by norm_num
  have hWrap := Int.emod_bmod value 4294967296
  rw [show ((4294967296 : Nat) : Int) = 4294967296 from rfl] at hWrap
  unfold toInt32
  rw [hWord, hPow, hWrap]
  apply Int.bmod_eq_of_le
  · omega
  · omega

theorem fieldValue_relocationWrite {value : Int} (hIn : off + kind.width ≤ data.length)
    (hFits : FitsField kind value) :
    fieldValue kind (relocationWrite kind data off value) off = value := by
  cases kind with
  | rel32 =>
    obtain ⟨hLo, hHi⟩ := hFits
    show toInt32 (linkerReadU32 (linkerWriteU32 data off (value % 2 ^ 32).toNat) off) = value
    rw [linkerReadU32_write hIn]
    exact toInt32_word hLo hHi
  | addr64 =>
    obtain ⟨hLo, hHi⟩ := hFits
    show ((linkerReadU64 (linkerWriteU64 data off (value % 2 ^ 64).toNat) off : Nat) : Int) = value
    rw [linkerReadU64_write hIn]
    omega
  | addr32nb =>
    obtain ⟨hLo, hHi⟩ := hFits
    show ((linkerReadU32 (linkerWriteU32 data off (value % 2 ^ 32).toNat) off : Nat) : Int) = value
    rw [linkerReadU32_write hIn]
    omega
  | secrel =>
    obtain ⟨hLo, hHi⟩ := hFits
    show ((linkerReadU32 (linkerWriteU32 data off (value % 2 ^ 32).toNat) off : Nat) : Int) = value
    rw [linkerReadU32_write hIn]
    omega

theorem relocationAddend_range (kind : RelocationKind) (data : List UInt8) (off : Nat) :
    (kind ≠ .addr64 → -2 ^ 31 ≤ relocationAddend kind data off ∧
      relocationAddend kind data off < 2 ^ 31) ∧
    -2 ^ 63 ≤ relocationAddend kind data off ∧ relocationAddend kind data off < 2 ^ 63 := by
  by_cases hKind : kind = .addr64
  · subst hKind
    exact ⟨fun h => absurd rfl h, toInt64_range _⟩
  · have hRead : relocationAddend kind data off = toInt32 (linkerReadU32 data off) := by
      cases kind with
      | addr64 => exact absurd rfl hKind
      | addr32nb => rfl
      | rel32 => rfl
      | secrel => rfl
    have h := toInt32_range (linkerReadU32 data off)
    rw [hRead]
    exact ⟨fun _ => h, by omega, by omega⟩

/-! ## One relocation -/

variable {job : RelocationJob}

theorem RelocationJob.width_eq (hKind : relocationKindOf job.relocation.type = some kind)
    : job.width = kind.width := by
  rw [RelocationJob.width, hKind]
  rfl

/-- Everything of a merged section but its bytes stays, and so does their number. -/
def SameShape (merged merged' : LinkedSection) : Prop :=
  merged' = { merged with data := merged'.data } ∧ merged'.data.length = merged.data.length

theorem SameShape.refl (merged : LinkedSection) : SameShape merged merged := ⟨rfl, rfl⟩

theorem SameShape.trans {a b c : LinkedSection} (hab : SameShape a b) (hbc : SameShape b c) :
    SameShape a c := by
  refine ⟨?_, hbc.2.trans hab.2⟩
  rw [hbc.1, hab.1]

/-- The field of `job` holds in `sections'` what its type prescribes from the bytes and
addresses of `sections`. -/
def Patched (symbols : List LinkedSymbol) (imageBase : Nat) (sections sections' : LinkedSections)
    (job : RelocationJob) : Prop :=
  ∃ target kind,
    relocationResolveTarget symbols job.input job.relocation.symbolTableIndex = .ok target ∧
    relocationKindOf job.relocation.type = some kind ∧
    job.patchOffset + kind.width ≤ (sections job.k).size ∧
    let exact := prescribedValue kind imageBase target (job.patchAddress sections)
      (relocationAddend kind (sections job.k).data job.patchOffset)
    FitsField kind (toInt64 exact) ∧
      fieldValue kind (sections' job.k).data job.patchOffset = toInt64 exact ∧
      (target.virtualAddress < 2 ^ 63 → target.mergedOffset < 2 ^ 63 →
        job.patchAddress sections + 4 < 2 ^ 63 → toInt64 exact = exact)

/-- What a run over the relocations `jobs` establishes. -/
structure Relocated (symbols : List LinkedSymbol) (imageBase : Nat) (jobs : List RelocationJob)
    (sections sections' : LinkedSections) : Prop where
  shape : ∀ k, SameShape (sections k) (sections' k)
  outside : ∀ k i, (∀ job ∈ jobs, ¬ job.Covers k i) → (sections' k).data[i]? = (sections k).data[i]?
  patched : ∀ job ∈ jobs, Patched symbols imageBase sections sections' job

variable {sections sections' sections₁ : LinkedSections}

section Run

variable {symbols : List LinkedSymbol} {imageBase : Nat}

/-- **One relocation** patches its field and nothing else. -/
theorem relocated_linkApplyRelocation
    (h : linkApplyRelocation symbols imageBase sections job = .ok sections') :
    Relocated symbols imageBase [job] sections sections' := by
  unfold linkApplyRelocation at h
  cases hTarget : relocationResolveTarget symbols job.input job.relocation.symbolTableIndex with
  | error message =>
    rw [hTarget] at h
    cases h
  | ok target =>
    cases hKind : relocationKindOf job.relocation.type with
    | none =>
      rw [hTarget, hKind] at h
      cases h
    | some kind =>
      rw [hTarget, hKind] at h
      dsimp only at h
      split at h
      · cases h
      · rename_i hBound
        split at h
        · rename_i hFits
          cases h
          have hIn : job.patchOffset + kind.width ≤ (sections job.k).data.length :=
            Nat.le_of_not_lt hBound
          have hWidth : job.width = kind.width := RelocationJob.width_eq hKind
          rw [relocationValue_eq] at hFits ⊢
          set exact := prescribedValue kind imageBase target (job.patchAddress sections)
            (relocationAddend kind (sections job.k).data job.patchOffset) with hExact
          obtain ⟨new, hNew, hWrite⟩ := relocationWrite_eq kind (sections job.k).data
            job.patchOffset (toInt64 exact)
          refine ⟨?_, ?_, ?_⟩
          · intro k
            by_cases hk : k = job.k
            · subst hk
              rw [Function.update_self]
              refine ⟨rfl, ?_⟩
              show (relocationWrite _ _ _ _).length = _
              rw [hWrite, length_patch (by omega)]
            · rw [Function.update_of_ne hk]
              exact SameShape.refl _
          · intro k i hOut
            by_cases hk : k = job.k
            · subst hk
              have hNot := hOut job (mem_singleton_self job)
              rw [Function.update_self]
              show (relocationWrite _ _ _ _)[i]? = _
              rw [hWrite, getElem?_patch (by omega), if_neg]
              rintro ⟨hLo, hHi⟩
              exact hNot ⟨rfl, hLo, by omega⟩
            · rw [Function.update_of_ne hk]
          · intro job' hMem
            rw [mem_singleton.mp hMem]
            have hField : FitsField kind (toInt64 exact) := (relocationFits_iff kind exact).mp hFits
            refine ⟨target, kind, hTarget, hKind, hIn, hField, ?_, ?_⟩
            · rw [Function.update_self]
              exact fieldValue_relocationWrite hIn hField
            · intro hS hO hP
              obtain ⟨hA, hA'⟩ := relocationAddend_range kind (sections job.k).data job.patchOffset
              exact toInt64_prescribed hS hO hP hA hA' hField
        · cases h

/-! ## A run of relocations -/

theorem slice_eq_of_getElem? {data : List UInt8} {off len : Nat}
    (h : ∀ i, off ≤ i → i < off + len → data'[i]? = data[i]?) :
    slice data' off len = slice data off len := by
  apply ext_getElem?
  intro i
  rw [getElem?_slice, getElem?_slice]
  split
  · exact h (off + i) (by omega) (by omega)
  · rfl

theorem Patched.after
    (h : Patched symbols imageBase sections sections₁ job) (hKeep : ∀ i, job.patchOffset ≤ i → i <
      job.patchOffset + job.width → (sections' job.k).data[i]? = (sections₁ job.k).data[i]?) :
    Patched symbols imageBase sections sections' job := by
  obtain ⟨target, kind, hTarget, hKind, hIn, hFits, hValue, hExact⟩ := h
  refine ⟨target, kind, hTarget, hKind, hIn, hFits, ?_, hExact⟩
  rw [RelocationJob.width_eq hKind] at hKeep
  rw [fieldValue_congr (slice_eq_of_getElem? hKeep), hValue]

theorem Patched.before (h : Patched symbols imageBase sections₁ sections' job)
    (hShape : SameShape (sections job.k) (sections₁ job.k)) (hKeep : ∀ i, job.patchOffset ≤ i → i <
      job.patchOffset + job.width → (sections₁ job.k).data[i]? = (sections job.k).data[i]?) :
    Patched symbols imageBase sections sections' job := by
  obtain ⟨target, kind, hTarget, hKind, hIn, hFits, hValue, hExact⟩ := h
  rw [RelocationJob.width_eq hKind] at hKeep
  have hAddend := relocationAddend_congr (slice_eq_of_getElem? hKeep)
  have hAddress : job.patchAddress sections₁ = job.patchAddress sections := by
    unfold RelocationJob.patchAddress
    rw [hShape.1]
  have hSize : (sections₁ job.k).size = (sections job.k).size := hShape.2
  rw [hAddend, hAddress] at hFits hValue hExact
  rw [hSize] at hIn
  exact ⟨target, kind, hTarget, hKind, hIn, hFits, hValue, hExact⟩

/-- **A run over disjoint fields is exact.** -/
theorem applyJobs_exact : ∀ (jobs : List RelocationJob) (sections sections' : LinkedSections),
      jobs.Pairwise FieldsDisjoint →
      jobs.foldlM (linkApplyRelocation symbols imageBase) sections = .ok sections' →
      Relocated symbols imageBase jobs sections sections'
  | [], sections, sections', _, h => by
    obtain rfl : sections = sections' := Except.ok.inj h
    refine ⟨fun k => SameShape.refl _, fun _ _ _ => rfl, ?_⟩
    intro job hMem
    cases hMem
  | job :: rest, sections, sections', hDisj, h => by
    rw [foldlM_cons] at h
    cases hStep : linkApplyRelocation symbols imageBase sections job with
    | error message =>
      rw [hStep] at h
      cases h
    | ok sections₁ =>
      rw [hStep] at h
      obtain ⟨hHead, hTail⟩ := pairwise_cons.mp hDisj
      have hFirst := relocated_linkApplyRelocation hStep
      have hRest := applyJobs_exact rest sections₁ sections' hTail h
      refine ⟨fun k => (hFirst.shape k).trans (hRest.shape k), ?_, ?_⟩
      · intro k i hOut
        rw [hRest.outside k i fun job' hMem => hOut job' (mem_cons_of_mem _ hMem)]
        refine hFirst.outside k i fun job' hMem => ?_
        rw [mem_singleton.mp hMem]
        exact hOut job mem_cons_self
      · intro job' hMem
        rcases mem_cons.mp hMem with rfl | hMem'
        · -- the first field: no later field covers it
          refine (hFirst.patched job' (mem_singleton_self _)).after fun i hLo hHi => ?_
          refine hRest.outside job'.k i fun later hLater => ?_
          rintro ⟨hk, hLo', hHi'⟩
          rcases hHead later hLater with hNe | hLt | hLt
          · exact hNe hk.symm
          · omega
          · omega
        · -- a later field: the first one did not cover it
          refine (hRest.patched job' hMem').before (hFirst.shape job'.k) fun i hLo hHi => ?_
          refine hFirst.outside job'.k i fun first hFirstMem => ?_
          rw [mem_singleton.mp hFirstMem]
          rintro ⟨hk, hLo', hHi'⟩
          rcases hHead job' hMem' with hNe | hLt | hLt
          · exact hNe hk
          · omega
          · omega

theorem foldlM_flatMap_ok {ε α β γ : Type} {f : β → α → Except ε β} {g : α → List γ}
    {step : β → γ → Except ε β}
    (hStep : ∀ b a b', f b a = .ok b' → (g a).foldlM step b = .ok b') :
    ∀ (l : List α) (b b' : β), l.foldlM f b = .ok b' → (l.flatMap g).foldlM step b = .ok b'
  | [], b, b', h => h
  | a :: rest, b, b', h => by
    rw [foldlM_cons] at h
    cases hHead : f b a with
    | error message =>
      rw [hHead] at h
      cases h
    | ok b₁ =>
      rw [hHead] at h
      rw [flatMap_cons, foldlM_append, hStep b a b₁ hHead]
      exact foldlM_flatMap_ok hStep rest b₁ b' h

theorem linkApplyRelocations_ok {resolution r : LinkResolution}
    (h : linkApplyRelocations resolution imageBase = .ok r) :
    (relocationJobs resolution).foldlM (linkApplyRelocation resolution.symbols imageBase)
      resolution.sections = .ok r.sections := by
  unfold linkApplyRelocations at h
  cases hRun : resolution.objects.foldlM
      (linkApplyObjectRelocations resolution.symbols imageBase) resolution.sections with
  | error message =>
    rw [hRun] at h
    cases h
  | ok sections =>
    rw [hRun] at h
    obtain rfl : { resolution with sections } = r := Except.ok.inj h
    refine foldlM_flatMap_ok ?_ _ _ _ hRun
    intro sections input sections' hObject
    refine foldlM_flatMap_ok ?_ _ _ _ hObject
    intro sections row sections' hSection
    unfold linkApplySectionRelocations at hSection
    by_cases hNone : row.1.relocations = []
    · rw [if_pos hNone] at hSection
      rw [hNone]
      cases row.2.mergedIndex <;> exact hSection
    · rw [if_neg hNone] at hSection
      cases hIndex : row.2.mergedIndex with
      | none =>
        rw [hIndex] at hSection
        dsimp only at hSection
        split at hSection
        · exact hSection
        · cases hSection
      | some k =>
        rw [hIndex] at hSection
        rw [foldlM_map]
        exact hSection

end Run

/-- **Relocation application is exact.** If the patched fields are pairwise disjoint and
the application succeeds, each field holds the value its type prescribes from the bytes
that were there before, computed in 64-bit arithmetic (the exact integer when the
addresses lie below `2 ^ 63`), every other byte of every merged section is unchanged, and
no section changes otherwise. The application fails whenever a field extends past the
merged section it lies in, or a value does not fit its field. -/
theorem linkApplyRelocations_exact (resolution : LinkResolution) (imageBase : Nat)
    (hDisj : (relocationJobs resolution).Pairwise FieldsDisjoint) :
    (∀ r, linkApplyRelocations resolution imageBase = .ok r →
      Relocated resolution.symbols imageBase (relocationJobs resolution) resolution.sections
        r.sections) ∧
    ∀ job ∈ relocationJobs resolution, ∀ kind, relocationKindOf job.relocation.type = some kind →
      ((resolution.sections job.k).size < job.patchOffset + kind.width ∨ ∃ target,
          relocationResolveTarget resolution.symbols job.input
            job.relocation.symbolTableIndex = .ok target ∧
          ¬ FitsField kind (toInt64 (prescribedValue kind imageBase target
            (job.patchAddress resolution.sections)
            (relocationAddend kind (resolution.sections job.k).data job.patchOffset)))) →
      ∃ message, linkApplyRelocations resolution imageBase = .error message := by
  have hExact : ∀ r, linkApplyRelocations resolution imageBase = .ok r →
      Relocated resolution.symbols imageBase (relocationJobs resolution) resolution.sections
        r.sections :=
    fun r hr => applyJobs_exact _ _ _ hDisj (linkApplyRelocations_ok hr)
  refine ⟨hExact, ?_⟩
  intro job hMem kind hKind hBad
  cases hRun : linkApplyRelocations resolution imageBase with
  | error message => exact ⟨message, rfl⟩
  | ok r =>
    obtain ⟨target, kind', hTarget, hKind', hIn, hFits, -⟩ := (hExact r hRun).patched job hMem
    obtain rfl : kind = kind' := Option.some.inj (hKind.symm.trans hKind')
    rcases hBad with hPast | ⟨target', hTarget', hNot⟩
    · omega
    · obtain rfl : target = target' := Except.ok.inj (hTarget.symm.trans hTarget')
      exact absurd hFits hNot

/-- `f`, which calls itself twice. -/
def selfCallText : List UInt8 := [0xE8, 0, 0, 0, 0, 0xE8, 0, 0, 0, 0, 0xC3]

def selfCallResolution : LinkResolution :=
  { objects :=
      [{ path := "a.obj"
         object :=
           { sections := [⟨cLit ".text", .text, 0, 0, selfCallText, [⟨1, 0, 4⟩, ⟨6, 0, 4⟩]⟩]
             symbols := [⟨0, some (cLit "f"), 0, 1, 0x20, 2, 0, false, 0, false, 0, 0, 0⟩] }
         placements := [⟨some 0, 0, 11, 16⟩]
         symbols := [⟨some (cLit "f"), 0, 0, true, true, false, false, 1, some 0, 0, 0x1000⟩] }]
    sections := fun k =>
      { linkResolutionInitSections k with
        data := if k = 0 then selfCallText else []
        virtualSize := if k = 0 then 11 else 0
        virtualAddress := if k = 0 then 0x1000 else 0 }
    symbols := []
    entrySymbol := none }

theorem linkApplyRelocations_selfCall :
    (relocationJobs selfCallResolution).Pairwise FieldsDisjoint ∧
      ∃ r, linkApplyRelocations selfCallResolution 0 = .ok r ∧
        Relocated selfCallResolution.symbols 0 (relocationJobs selfCallResolution)
          selfCallResolution.sections r.sections := by
  have hDisj : (relocationJobs selfCallResolution).Pairwise FieldsDisjoint :=
    pairwise_pair.mpr (.inr (.inl (by decide)))
  refine ⟨hDisj, ?_⟩
  have hRun : (linkApplyRelocations selfCallResolution 0).toOption.isSome = true := by
    decide +kernel
  cases hLink : linkApplyRelocations selfCallResolution 0 with
  | error message =>
    rw [hLink] at hRun
    cases hRun
  | ok r => exact ⟨r, rfl, (linkApplyRelocations_exact selfCallResolution 0 hDisj).1 r hLink⟩

/-- Two `.data` bytes whose relocation table patches four bytes at offset 0. -/
def shortDataObject : CoffObject :=
  { sections := [⟨cLit ".data", .data, 0, 0xC0000040, [0, 0], [⟨0, 0, 3⟩]⟩]
    symbols := [⟨0, some (cLit "d"), 0x10000, 1, 0, 3, 0, false, 0, false, 0, 0, 0⟩] }

/-- Four further `.data` bytes, which are merged right after those of `shortDataObject`. -/
def nextDataObject : CoffObject :=
  { sections := [⟨cLit ".data", .data, 0, 0xC0100040, [1, 2, 3, 4], []⟩]
    symbols := [] }

def linkAndRelocate (inputs : List (String × CoffObject)) :
    Except String (LinkResolution × LinkResolution) := do
  let resolution ← linkResolutionResolve inputs {}
  let relocated ← linkApplyRelocations resolution 0
  return (resolution, relocated)

/-- A field may leave the contribution of its own section: the four-byte field of the
two-byte contribution at offset 0 overwrites the first byte of the next object's
contribution at offset 2, and the application succeeds. -/
theorem pastContribution_accepted :
    ∃ resolution relocated, linkAndRelocate [("a.obj", shortDataObject), ("b.obj", nextDataObject)] =
        .ok (resolution, relocated) ∧
      (resolution.sections 2).contributions = [⟨0, 0, 0, 2, 16⟩, ⟨1, 0, 2, 4, 1⟩] ∧
      (relocationJobs resolution).map (fun job => (job.k, job.patchOffset, job.width)) =
        [(2, 0, 4)] ∧
      (resolution.sections 2).data = [0, 0, 1, 2, 3, 4] ∧
      (relocated.sections 2).data = [0, 0, 2, 2, 3, 4] := by
  have hRun : (match linkAndRelocate [("a.obj", shortDataObject), ("b.obj", nextDataObject)] with
      | .error _ => false
      | .ok p => decide ((p.1.sections 2).contributions = [⟨0, 0, 0, 2, 16⟩, ⟨1, 0, 2, 4, 1⟩] ∧
          (relocationJobs p.1).map (fun job => (job.k, job.patchOffset, job.width)) = [(2, 0, 4)] ∧
          (p.1.sections 2).data = [0, 0, 1, 2, 3, 4] ∧
          (p.2.sections 2).data = [0, 0, 2, 2, 3, 4])) = true := by
    decide +kernel
  split at hRun
  · cases hRun
  · rename_i p hLink
    exact ⟨p.1, p.2, hLink, of_decide_eq_true hRun⟩

end Mettle.Linker
