import Mathlib.Data.List.FinRange
import Mettle.Linker.SectionMerge

/-!
# Mettle — the layout of a PE image

The model of `pe_collect_sections`, `pe_layout_sections` and the part of
`pe_emit_executable` that chooses the alignments and the size of the headers
(`linker/pe_emitter.c`), and what a loader needs from the result
(`WellFormedImage`).

The layout runs two cursors, one over addresses and one over file offsets, in
`uint32_t` arithmetic, and never fails. `peLayoutWith` takes the conversion to
`uint32_t` as an argument: with the conversion it is the layout of the source,
with the identity it is the layout the 32-bit fields are meant to hold.
-/

namespace Mettle.Linker

open List

-- ---
-- Section records
-- ---

/-- The conversion `(uint32_t)n`. -/
def toUInt32 (n : Nat) : Nat := n % 2 ^ 32

def UINT32_MAX : Nat := 2 ^ 32 - 1

def PE_DOS_STUB_SIZE : Nat := 64 + 64
def PE_FILE_HEADER_SIZE : Nat := 20
def PE_SECTION_HEADER_SIZE : Nat := 40
def PE_OPTIONAL_HEADER64_SIZE : Nat := 240

def IMAGE_SCN_CNT_CODE : Nat := 0x00000020
def IMAGE_SCN_CNT_INITIALIZED_DATA : Nat := 0x00000040
def IMAGE_SCN_CNT_UNINITIALIZED_DATA : Nat := 0x00000080
def IMAGE_SCN_MEM_EXECUTE : Nat := 0x20000000
def IMAGE_SCN_MEM_READ : Nat := 0x40000000
def IMAGE_SCN_MEM_WRITE : Nat := 0x80000000

/-- The PE flags of a kind. -/
def peCharacteristicsForKind : CoffSectionKind → Nat
  | .text => IMAGE_SCN_CNT_CODE ||| IMAGE_SCN_MEM_EXECUTE ||| IMAGE_SCN_MEM_READ
  | .rdata => IMAGE_SCN_CNT_INITIALIZED_DATA ||| IMAGE_SCN_MEM_READ
  | .data => IMAGE_SCN_CNT_INITIALIZED_DATA ||| IMAGE_SCN_MEM_READ ||| IMAGE_SCN_MEM_WRITE
  | .bss => IMAGE_SCN_CNT_UNINITIALIZED_DATA ||| IMAGE_SCN_MEM_READ ||| IMAGE_SCN_MEM_WRITE
  | .pdata => IMAGE_SCN_CNT_INITIALIZED_DATA ||| IMAGE_SCN_MEM_READ
  | .xdata => IMAGE_SCN_CNT_INITIALIZED_DATA ||| IMAGE_SCN_MEM_READ
  | .unknown => IMAGE_SCN_MEM_READ

/-- A section of the image. -/
structure PeSectionLayout where
  mergedSectionIndex : Fin 6
  name : String
  source : LinkedSection
  characteristics : Nat
  virtualAddress : Nat
  virtualSize : Nat
  rawOffset : Nat
  rawSize : Nat
  deriving DecidableEq

/-- The loop of `pe_collect_sections` over the merged sections listed. -/
def peCollectFrom (sections : LinkedSections) : List (Fin 6) → Except String (List PeSectionLayout)
  | [] => .ok []
  | k :: rest =>
    let merged := sections k
    if merged.virtualSize = 0 then
      peCollectFrom sections rest
    else if merged.kind ≠ .bss ∧ merged.size > UINT32_MAX then
      .error ("Section '" ++ merged.name ++ "' exceeds PE raw-size limits")
    else if merged.virtualSize > UINT32_MAX then
      .error ("Section '" ++ merged.name ++ "' exceeds PE virtual-size limits")
    else
      match peCollectFrom sections rest with
      | .error e => .error e
      | .ok layouts =>
        .ok ({ mergedSectionIndex := k
               name := merged.name
               source := merged
               characteristics := peCharacteristicsForKind merged.kind
               virtualAddress := 0
               virtualSize := toUInt32 merged.virtualSize
               rawOffset := 0
               rawSize := if merged.kind = .bss then 0 else toUInt32 merged.size } :: layouts)

/-- The merged sections that are not empty. -/
def peCollectSections (sections : LinkedSections) : Except String (List PeSectionLayout) :=
  match peCollectFrom sections (List.finRange 6) with
  | .error e => .error e
  | .ok [] => .error "No merged sections are available to emit"
  | .ok layouts => .ok layouts

-- ---
-- Layout
-- ---

/-- The running totals of `pe_layout_sections`. -/
structure PeCursor where
  currentRva : Nat
  currentRaw : Nat
  sizeOfCode : Nat
  sizeOfInitData : Nat
  sizeOfUninitData : Nat
  baseOfCode : Nat
  deriving DecidableEq

/-- The `switch` on the section kind, after the section got its raw size. -/
def PeCursor.count (cast : Nat → Nat) (cursor : PeCursor) (layout : PeSectionLayout) : PeCursor :=
  match layout.source.kind with
  | .text =>
    { cursor with
      sizeOfCode := cast (cursor.sizeOfCode + layout.rawSize)
      baseOfCode :=
        if cursor.baseOfCode = 0 then layout.virtualAddress else cursor.baseOfCode }
  | .rdata | .pdata | .xdata | .data =>
    { cursor with sizeOfInitData := cast (cursor.sizeOfInitData + layout.rawSize) }
  | .bss => { cursor with sizeOfUninitData := cast (cursor.sizeOfUninitData + layout.virtualSize) }
  | .unknown => cursor

def PeCursor.place (cast : Nat → Nat) (fileAlignment : Nat) (cursor : PeCursor)
    (layout : PeSectionLayout) : PeSectionLayout :=
  { layout with
    virtualAddress := cursor.currentRva
    rawOffset := if layout.rawSize = 0 then 0 else cursor.currentRaw
    rawSize := if layout.rawSize ≠ 0 then cast (linkerAlignUp layout.rawSize fileAlignment)
      else layout.rawSize }

def PeCursor.advance (cast : Nat → Nat) (sectionAlignment : Nat) (cursor : PeCursor)
    (placed : PeSectionLayout) : PeCursor :=
  let alignedVirtualSize := cast (linkerAlignUp placed.virtualSize sectionAlignment)
  let cursor := { cursor with
    currentRva := cast (cursor.currentRva + alignedVirtualSize)
    currentRaw := if placed.rawSize ≠ 0 then cast (cursor.currentRaw + placed.rawSize)
      else cursor.currentRaw }
  cursor.count cast placed

/-- The loop of `pe_layout_sections`. -/
def peLayoutFrom (cast : Nat → Nat) (sectionAlignment fileAlignment : Nat) :
    PeCursor → List PeSectionLayout → List PeSectionLayout × PeCursor
  | cursor, [] => ([], cursor)
  | cursor, layout :: rest =>
    let placed := cursor.place cast fileAlignment layout
    let result := peLayoutFrom cast sectionAlignment fileAlignment
      (cursor.advance cast sectionAlignment placed) rest
    (placed :: result.1, result.2)

/-- A finished layout, with the cursors where the loop left them. -/
structure PeImageLayout where
  layouts : List PeSectionLayout
  cursor : PeCursor
  sizeOfImage : Nat
  deriving DecidableEq

def peStart (cast : Nat → Nat) (sectionAlignment fileAlignment sizeOfHeaders : Nat) : PeCursor :=
  { currentRva := cast (linkerAlignUp sizeOfHeaders sectionAlignment)
    currentRaw := cast (linkerAlignUp sizeOfHeaders fileAlignment)
    sizeOfCode := 0
    sizeOfInitData := 0
    sizeOfUninitData := 0
    baseOfCode := 0 }

def peLayoutWith (cast : Nat → Nat) (layouts : List PeSectionLayout)
    (sectionAlignment fileAlignment sizeOfHeaders : Nat) : PeImageLayout :=
  let result := peLayoutFrom cast sectionAlignment fileAlignment
    (peStart cast sectionAlignment fileAlignment sizeOfHeaders) layouts
  { layouts := result.1
    cursor := result.2
    sizeOfImage := cast (linkerAlignUp result.2.currentRva sectionAlignment) }

/-- The layout the source computes: every sum is kept in a `uint32_t`. -/
def peLayoutSections (layouts : List PeSectionLayout)
    (sectionAlignment fileAlignment sizeOfHeaders : Nat) : PeImageLayout :=
  peLayoutWith toUInt32 layouts sectionAlignment fileAlignment sizeOfHeaders

def peLayoutExact (layouts : List PeSectionLayout)
    (sectionAlignment fileAlignment sizeOfHeaders : Nat) : PeImageLayout :=
  peLayoutWith id layouts sectionAlignment fileAlignment sizeOfHeaders

/-- The two alignment fields of `PeEmissionOptions`. -/
structure PeEmissionOptions where
  sectionAlignment : UInt32
  fileAlignment : UInt32
  deriving DecidableEq

/-- The alignments `pe_emit_executable` works with: an option below `0x200` keeps the
default, and the section alignment must not be below the file alignment. -/
def peAcceptAlignments (options : Option PeEmissionOptions) : Except String (UInt32 × UInt32) :=
  let sectionAlignment : UInt32 := match options with
    | some o => if o.sectionAlignment ≥ 0x200 then o.sectionAlignment else 0x1000
    | none => 0x1000
  let fileAlignment : UInt32 := match options with
    | some o => if o.fileAlignment ≥ 0x200 then o.fileAlignment else 0x200
    | none => 0x200
  if sectionAlignment < fileAlignment then
    .error "PE section alignment must be at least the file alignment"
  else
    .ok (sectionAlignment, fileAlignment)

/-- The bytes the headers of an image with `count` sections take. -/
def peHeaderBytes (count : Nat) : Nat :=
  PE_DOS_STUB_SIZE + 4 + PE_FILE_HEADER_SIZE + PE_OPTIONAL_HEADER64_SIZE +
    count * PE_SECTION_HEADER_SIZE

def peSizeOfHeaders (count fileAlignment : Nat) : Nat :=
  toUInt32 (linkerAlignUp (peHeaderBytes count) fileAlignment)

-- ---
-- What a loader needs
-- ---

/-- **A well-formed image.** -/
structure WellFormedImage (headerBytes sectionAlignment fileAlignment sizeOfHeaders : Nat)
    (layouts : List PeSectionLayout) (image : PeImageLayout) : Prop where
  headers_fit : headerBytes ≤ sizeOfHeaders
  rva_aligned : ∀ s ∈ image.layouts, sectionAlignment ∣ s.virtualAddress
  rva_increasing : image.layouts.Pairwise fun s t => s.virtualAddress < t.virtualAddress
  rva_disjoint : image.layouts.Pairwise fun s t =>
    s.virtualAddress + s.virtualSize ≤ t.virtualAddress
  rva_after_headers : ∀ s ∈ image.layouts, sizeOfHeaders ≤ s.virtualAddress
  rva_in_image : ∀ s ∈ image.layouts, s.virtualAddress + s.virtualSize ≤ image.sizeOfImage
  raw_aligned : ∀ s ∈ image.layouts, fileAlignment ∣ s.rawOffset ∧ fileAlignment ∣ s.rawSize
  raw_disjoint : (image.layouts.filter (·.rawSize ≠ 0)).Pairwise fun s t =>
    s.rawOffset + s.rawSize ≤ t.rawOffset
  raw_after_headers : ∀ s ∈ image.layouts, s.rawSize ≠ 0 → sizeOfHeaders ≤ s.rawOffset
  raw_large_enough : ∀ s ∈ image.layouts, s.source.kind ≠ .bss → s.source.size ≤ s.rawSize
  no_wrap : image = peLayoutExact layouts sectionAlignment fileAlignment sizeOfHeaders

def rvaTotal (sectionAlignment start : Nat) (layouts : List PeSectionLayout) : Nat :=
  start + (layouts.map fun s => linkerAlignUp s.virtualSize sectionAlignment).sum

def rawTotal (fileAlignment start : Nat) (layouts : List PeSectionLayout) : Nat :=
  start + (layouts.map fun s => linkerAlignUp s.rawSize fileAlignment).sum

/-- **The sizes round to multiples.** -/
structure SizesRound (sectionAlignment fileAlignment sizeOfHeaders : Nat)
    (layouts : List PeSectionLayout) : Prop where
  headers_rva : sectionAlignment ∣ linkerAlignUp sizeOfHeaders sectionAlignment
  virtual : ∀ s ∈ layouts.dropLast, sectionAlignment ∣ linkerAlignUp s.virtualSize sectionAlignment
  headers_raw : (∃ s ∈ layouts, s.rawSize ≠ 0) →
    fileAlignment ∣ linkerAlignUp sizeOfHeaders fileAlignment
  raw : ∀ s ∈ layouts, fileAlignment ∣ linkerAlignUp s.rawSize fileAlignment

/-- **Both totals fit**, and so do the headers. -/
structure TotalsFit (sectionAlignment fileAlignment headerBytes : Nat)
    (layouts : List PeSectionLayout) : Prop where
  headers : linkerAlignUp headerBytes fileAlignment < 2 ^ 32
  rva : linkerAlignUp (rvaTotal sectionAlignment
    (linkerAlignUp (linkerAlignUp headerBytes fileAlignment) sectionAlignment) layouts)
      sectionAlignment < 2 ^ 32
  raw : rawTotal fileAlignment
    (linkerAlignUp (linkerAlignUp headerBytes fileAlignment) fileAlignment) layouts < 2 ^ 32

theorem sizesRound_of_powers (m n sizeOfHeaders : Nat) (layouts : List PeSectionLayout) :
    SizesRound (2 ^ m) (2 ^ n) sizeOfHeaders layouts where
  headers_rva := dvd_linkerAlignUp _ m
  virtual := fun _ _ => dvd_linkerAlignUp _ m
  headers_raw := fun _ => dvd_linkerAlignUp _ n
  raw := fun _ _ => dvd_linkerAlignUp _ n

-- ---
-- The exact layout
-- ---

@[simp] theorem linkerAlignUp_zero (alignment : Nat) : linkerAlignUp 0 alignment = 0 := by
  unfold linkerAlignUp
  by_cases h : alignment = 0
  · rw [if_pos h]
  · rw [if_neg h, Nat.zero_add, Nat.and_self, Nat.sub_self]

theorem linkerAlignUp_lt (value alignment : Nat) (h : 0 < alignment) :
    linkerAlignUp value alignment < value + alignment := by
  unfold linkerAlignUp
  rw [if_neg (by omega)]
  omega

theorem toUInt32_of_lt {n : Nat} (h : n < 2 ^ 32) : toUInt32 n = n := Nat.mod_eq_of_lt h

theorem toUInt32_lt (n : Nat) : toUInt32 n < 2 ^ 32 := Nat.mod_lt _ (by norm_num)

variable {sectionAlignment fileAlignment : Nat}

variable (layouts : List PeSectionLayout)

variable (cast : Nat → Nat)

variable (cursor : PeCursor)

variable (s : PeSectionLayout)

section Loop

@[simp] theorem place_virtualAddress :
    (cursor.place cast fileAlignment s).virtualAddress = cursor.currentRva := rfl

@[simp] theorem place_virtualSize :
    (cursor.place cast fileAlignment s).virtualSize = s.virtualSize := rfl

@[simp] theorem place_rawSize :
    (cursor.place id fileAlignment s).rawSize = linkerAlignUp s.rawSize fileAlignment := by
  show (if s.rawSize ≠ 0 then linkerAlignUp s.rawSize fileAlignment else s.rawSize) = _
  by_cases h : s.rawSize = 0
  · rw [if_neg (not_not.mpr h), h, linkerAlignUp_zero]
  · rw [if_pos h]

@[simp] theorem place_rawOffset :
    (cursor.place cast fileAlignment s).rawOffset =
      if s.rawSize = 0 then 0 else cursor.currentRaw := rfl

@[simp] theorem advance_currentRva :
    (cursor.advance id sectionAlignment s).currentRva =
      cursor.currentRva + linkerAlignUp s.virtualSize sectionAlignment := by
  unfold PeCursor.advance PeCursor.count
  cases s.source.kind <;> rfl

@[simp] theorem advance_currentRaw :
    (cursor.advance id sectionAlignment s).currentRaw = cursor.currentRaw + s.rawSize := by
  have h : (if s.rawSize ≠ 0 then id (cursor.currentRaw + s.rawSize) else cursor.currentRaw) =
      cursor.currentRaw + s.rawSize := by
    by_cases hZero : s.rawSize = 0
    · rw [if_neg (not_not.mpr hZero), hZero, Nat.add_zero]
    · rw [if_pos hZero, id]
  rw [← h]
  unfold PeCursor.advance PeCursor.count
  cases s.source.kind <;> rfl

theorem rvaTotal_cons (start : Nat) (s : PeSectionLayout) (rest : List PeSectionLayout) :
    rvaTotal sectionAlignment start (s :: rest) =
      rvaTotal sectionAlignment (start + linkerAlignUp s.virtualSize sectionAlignment) rest := by
  simp only [rvaTotal, map_cons, sum_cons]
  omega

theorem rawTotal_cons (start : Nat) (s : PeSectionLayout) (rest : List PeSectionLayout) :
    rawTotal fileAlignment start (s :: rest) =
      rawTotal fileAlignment (start + linkerAlignUp s.rawSize fileAlignment) rest := by
  simp only [rawTotal, map_cons, sum_cons]
  omega

theorem le_rvaTotal (sectionAlignment start : Nat) (layouts : List PeSectionLayout) :
    start ≤ rvaTotal sectionAlignment start layouts := Nat.le_add_right _ _

theorem le_rawTotal (fileAlignment start : Nat) (layouts : List PeSectionLayout) :
    start ≤ rawTotal fileAlignment start layouts := Nat.le_add_right _ _

variable (sectionAlignment fileAlignment) in
theorem exact_cursor : ∀ cursor : PeCursor,
    (peLayoutFrom id sectionAlignment fileAlignment cursor layouts).2.currentRva =
        rvaTotal sectionAlignment cursor.currentRva layouts ∧
      (peLayoutFrom id sectionAlignment fileAlignment cursor layouts).2.currentRaw =
        rawTotal fileAlignment cursor.currentRaw layouts := by
  induction layouts with
  | nil => intro cursor; exact ⟨rfl, rfl⟩
  | cons s rest ih =>
    intro cursor
    obtain ⟨hRva, hRaw⟩ := ih (cursor.advance id sectionAlignment (cursor.place id fileAlignment s))
    refine ⟨hRva.trans ?_, hRaw.trans ?_⟩
    · rw [rvaTotal_cons, advance_currentRva, place_virtualSize]
    · rw [rawTotal_cons, advance_currentRaw, place_rawSize]

theorem exact_mem : ∀ (cursor : PeCursor) (t : PeSectionLayout),
    t ∈ (peLayoutFrom id sectionAlignment fileAlignment cursor layouts).1 →
      ∃ s ∈ layouts, t.source = s.source ∧ t.virtualSize = s.virtualSize ∧
        t.rawSize = linkerAlignUp s.rawSize fileAlignment := by
  induction layouts with
  | nil => intro cursor t hMem; cases hMem
  | cons s rest ih =>
    intro cursor t hMem
    rcases mem_cons.mp hMem with rfl | hMem
    · exact ⟨s, mem_cons_self, rfl, rfl, place_rawSize cursor s⟩
    · obtain ⟨s', hIn, hKeeps⟩ := ih _ t hMem
      exact ⟨s', mem_cons_of_mem _ hIn, hKeeps⟩

theorem exact_bounds : ∀ (cursor : PeCursor) (t : PeSectionLayout),
    t ∈ (peLayoutFrom id sectionAlignment fileAlignment cursor layouts).1 →
      cursor.currentRva ≤ t.virtualAddress ∧ t.virtualAddress + t.virtualSize ≤
          rvaTotal sectionAlignment cursor.currentRva layouts ∧
        (t.rawSize ≠ 0 → cursor.currentRaw ≤ t.rawOffset) := by
  induction layouts with
  | nil => intro cursor t hMem; cases hMem
  | cons s rest ih =>
    intro cursor t hMem
    have hRound := le_linkerAlignUp s.virtualSize sectionAlignment
    rw [rvaTotal_cons]
    rcases mem_cons.mp hMem with rfl | hMem
    · have hTotal := le_rvaTotal sectionAlignment
        (cursor.currentRva + linkerAlignUp s.virtualSize sectionAlignment) rest
      refine ⟨le_rfl, ?_, ?_⟩
      · rw [place_virtualAddress, place_virtualSize]
        omega
      · intro hRaw
        rw [place_rawSize] at hRaw
        rw [place_rawOffset, if_neg ?_]
        rintro hZero
        exact hRaw (by rw [hZero, linkerAlignUp_zero])
    · obtain ⟨hLow, hHigh, hRaw⟩ := ih _ t hMem
      rw [advance_currentRva, place_virtualSize] at hLow hHigh
      rw [advance_currentRaw] at hRaw
      exact ⟨by omega, hHigh, fun h => by have := hRaw h; omega⟩

variable (sectionAlignment fileAlignment) in
/-- **The exact layout places the sections one behind the other**, in memory and in
the file. -/
theorem exact_placed : ∀ cursor : PeCursor,
    ((peLayoutFrom id sectionAlignment fileAlignment cursor layouts).1.Pairwise fun s t =>
        s.virtualAddress + s.virtualSize ≤ t.virtualAddress) ∧
      (peLayoutFrom id sectionAlignment fileAlignment cursor layouts).1.Pairwise fun s t =>
        s.rawSize ≠ 0 → t.rawSize ≠ 0 → s.rawOffset + s.rawSize ≤ t.rawOffset := by
  induction layouts with
  | nil => intro cursor; exact ⟨List.Pairwise.nil, List.Pairwise.nil⟩
  | cons s rest ih =>
    intro cursor
    have hRound := le_linkerAlignUp s.virtualSize sectionAlignment
    obtain ⟨hRva, hRaw⟩ := ih (cursor.advance id sectionAlignment (cursor.place id fileAlignment s))
    refine ⟨List.Pairwise.cons ?_ hRva, List.Pairwise.cons ?_ hRaw⟩
    · intro t hMem
      have hLow := (exact_bounds rest _ t hMem).1
      rw [advance_currentRva, place_virtualSize] at hLow
      rw [place_virtualAddress, place_virtualSize]
      omega
    · intro t hMem hSome hSome'
      have hLow := (exact_bounds rest _ t hMem).2.2 hSome'
      rw [advance_currentRaw] at hLow
      rw [place_rawOffset, if_neg ?_]
      · exact hLow
      · rintro hZero
        rw [place_rawSize, hZero, linkerAlignUp_zero] at hSome
        exact hSome rfl

theorem exact_rva_aligned_iff (hSome : layouts ≠ []) : ∀ cursor : PeCursor,
    (∀ t ∈ (peLayoutFrom id sectionAlignment fileAlignment cursor layouts).1,
        sectionAlignment ∣ t.virtualAddress) ↔
      sectionAlignment ∣ cursor.currentRva ∧
        ∀ s ∈ layouts.dropLast, sectionAlignment ∣ linkerAlignUp s.virtualSize sectionAlignment := by
  induction layouts with
  | nil => exact absurd rfl hSome
  | cons s rest ih =>
    intro cursor
    have hSplit : (∀ t ∈ (peLayoutFrom id sectionAlignment fileAlignment cursor (s :: rest)).1,
        sectionAlignment ∣ t.virtualAddress) ↔ sectionAlignment ∣ cursor.currentRva ∧
        ∀ t ∈ (peLayoutFrom id sectionAlignment fileAlignment
          (cursor.advance id sectionAlignment (cursor.place id fileAlignment s)) rest).1,
          sectionAlignment ∣ t.virtualAddress := forall_mem_cons
    rw [hSplit]
    by_cases hRest : rest = []
    · subst hRest
      simp [peLayoutFrom]
    · rw [ih hRest, dropLast_cons_of_ne_nil hRest, forall_mem_cons, advance_currentRva,
        place_virtualSize]
      constructor
      · rintro ⟨hStart, hNext, hSizes⟩
        exact ⟨hStart, (Nat.dvd_add_right hStart).mp hNext, hSizes⟩
      · rintro ⟨hStart, hNext, hSizes⟩
        exact ⟨hStart, Nat.dvd_add hStart hNext, hSizes⟩

theorem exact_raw_aligned_iff : ∀ cursor : PeCursor,
    (∀ t ∈ (peLayoutFrom id sectionAlignment fileAlignment cursor layouts).1,
        fileAlignment ∣ t.rawOffset ∧ fileAlignment ∣ t.rawSize) ↔
      ((∃ s ∈ layouts, s.rawSize ≠ 0) → fileAlignment ∣ cursor.currentRaw) ∧
        ∀ s ∈ layouts, fileAlignment ∣ linkerAlignUp s.rawSize fileAlignment := by
  induction layouts with
  | nil => intro cursor; simp [peLayoutFrom]
  | cons s rest ih =>
    intro cursor
    have hSplit : (∀ t ∈ (peLayoutFrom id sectionAlignment fileAlignment cursor (s :: rest)).1,
        fileAlignment ∣ t.rawOffset ∧ fileAlignment ∣ t.rawSize) ↔
        (fileAlignment ∣ (cursor.place id fileAlignment s).rawOffset ∧
          fileAlignment ∣ (cursor.place id fileAlignment s).rawSize) ∧
        ∀ t ∈ (peLayoutFrom id sectionAlignment fileAlignment
          (cursor.advance id sectionAlignment (cursor.place id fileAlignment s)) rest).1,
          fileAlignment ∣ t.rawOffset ∧ fileAlignment ∣ t.rawSize := forall_mem_cons
    rw [hSplit, ih, forall_mem_cons, place_rawSize, place_rawOffset, advance_currentRaw,
      place_rawSize]
    constructor
    · rintro ⟨⟨hOffset, hSize⟩, hStart, hSizes⟩
      refine ⟨?_, hSize, hSizes⟩
      rintro ⟨s', hMem, hNonzero⟩
      by_cases hZero : s.rawSize = 0
      · rcases mem_cons.mp hMem with rfl | hMem
        · exact absurd hZero hNonzero
        · exact (Nat.dvd_add_left hSize).mp (hStart ⟨s', hMem, hNonzero⟩)
      · rwa [if_neg hZero] at hOffset
    · rintro ⟨hStart, hSize, hSizes⟩
      refine ⟨⟨?_, hSize⟩, ?_, hSizes⟩
      · by_cases hZero : s.rawSize = 0
        · rw [if_pos hZero]
          exact dvd_zero _
        · rw [if_neg hZero]
          exact hStart ⟨s, mem_cons_self, hZero⟩
      · rintro ⟨s', hMem, hNonzero⟩
        exact Nat.dvd_add (hStart ⟨s', mem_cons_of_mem _ hMem, hNonzero⟩) hSize

theorem currentRaw_lt : ∀ cursor : PeCursor, cursor.currentRaw < 2 ^ 32 →
      (peLayoutFrom toUInt32 sectionAlignment fileAlignment cursor layouts).2.currentRaw <
        2 ^ 32 := by
  induction layouts with
  | nil => intro cursor hLt; exact hLt
  | cons s rest ih =>
    intro cursor hLt
    refine ih _ ?_
    have hNext : (if (cursor.place toUInt32 fileAlignment s).rawSize ≠ 0 then
        toUInt32 (cursor.currentRaw + (cursor.place toUInt32 fileAlignment s).rawSize)
        else cursor.currentRaw) < 2 ^ 32 := by
      split
      · exact toUInt32_lt _
      · exact hLt
    generalize cursor.place toUInt32 fileAlignment s = placed at hNext ⊢
    unfold PeCursor.advance PeCursor.count
    cases placed.source.kind <;> exact hNext

-- ---
-- Totals below 2 ^ 32
-- ---

def PeCursor.Counted (cursor : PeCursor) : Prop :=
  cursor.sizeOfCode ≤ cursor.currentRaw ∧ cursor.sizeOfInitData ≤ cursor.currentRaw ∧
    cursor.sizeOfUninitData ≤ cursor.currentRva

theorem counted_advance {cursor : PeCursor} (hCounted : cursor.Counted) (s : PeSectionLayout) :
    (cursor.advance id sectionAlignment s).Counted := by
  obtain ⟨hCode, hInit, hUninit⟩ := hCounted
  have hRound := le_linkerAlignUp s.virtualSize sectionAlignment
  unfold PeCursor.Counted
  rw [advance_currentRaw, advance_currentRva]
  unfold PeCursor.advance PeCursor.count
  cases s.source.kind <;> simp only [id] <;> omega

theorem place_toUInt32 {s : PeSectionLayout}
    (hFits : linkerAlignUp s.rawSize fileAlignment < 2 ^ 32) :
    cursor.place toUInt32 fileAlignment s = cursor.place id fileAlignment s := by
  unfold PeCursor.place
  rw [toUInt32_of_lt hFits, id]

theorem advance_toUInt32 {cursor : PeCursor} (hCounted : cursor.Counted) {s : PeSectionLayout}
    (hRva : cursor.currentRva + linkerAlignUp s.virtualSize sectionAlignment < 2 ^ 32)
    (hRaw : cursor.currentRaw + s.rawSize < 2 ^ 32) :
    cursor.advance toUInt32 sectionAlignment s = cursor.advance id sectionAlignment s := by
  obtain ⟨hCode, hInit, hUninit⟩ := hCounted
  have hRound := le_linkerAlignUp s.virtualSize sectionAlignment
  have hAligned : linkerAlignUp s.virtualSize sectionAlignment < 2 ^ 32 := by omega
  have hCode' : cursor.sizeOfCode + s.rawSize < 2 ^ 32 := by omega
  have hInit' : cursor.sizeOfInitData + s.rawSize < 2 ^ 32 := by omega
  have hUninit' : cursor.sizeOfUninitData + s.virtualSize < 2 ^ 32 := by omega
  unfold PeCursor.advance PeCursor.count
  simp only [toUInt32_of_lt hAligned, toUInt32_of_lt hRva, toUInt32_of_lt hRaw,
    toUInt32_of_lt hCode', toUInt32_of_lt hInit', toUInt32_of_lt hUninit', id]

/-- **Totals below `2 ^ 32` make the loop exact.** -/
theorem peLayoutFrom_toUInt32 : ∀ cursor : PeCursor,
    cursor.Counted → rvaTotal sectionAlignment cursor.currentRva layouts < 2 ^ 32 →
      rawTotal fileAlignment cursor.currentRaw layouts < 2 ^ 32 →
      peLayoutFrom toUInt32 sectionAlignment fileAlignment cursor layouts =
        peLayoutFrom id sectionAlignment fileAlignment cursor layouts := by
  induction layouts with
  | nil => intro cursor _ _ _; rfl
  | cons s rest ih =>
    intro cursor hCounted hRva hRaw
    rw [rvaTotal_cons] at hRva
    rw [rawTotal_cons] at hRaw
    have hRvaNext := le_rvaTotal sectionAlignment
      (cursor.currentRva + linkerAlignUp s.virtualSize sectionAlignment) rest
    have hRawNext := le_rawTotal fileAlignment
      (cursor.currentRaw + linkerAlignUp s.rawSize fileAlignment) rest
    have hPlace : cursor.place toUInt32 fileAlignment s = cursor.place id fileAlignment s :=
      place_toUInt32 cursor (by omega)
    have hAdvance : cursor.advance toUInt32 sectionAlignment (cursor.place id fileAlignment s) =
        cursor.advance id sectionAlignment (cursor.place id fileAlignment s) :=
      advance_toUInt32 hCounted (by rw [place_virtualSize]; omega) (by rw [place_rawSize]; omega)
    have hRest := ih (cursor.advance id sectionAlignment (cursor.place id fileAlignment s))
      (counted_advance hCounted _)
      (by rw [advance_currentRva, place_virtualSize]; exact hRva)
      (by rw [advance_currentRaw, place_rawSize]; exact hRaw)
    simp only [peLayoutFrom, hPlace, hAdvance, hRest]

end Loop

variable {layouts : List PeSectionLayout}

theorem peLayoutSections_eq_exact {sizeOfHeaders : Nat}
    (hRva : linkerAlignUp (rvaTotal sectionAlignment
      (linkerAlignUp sizeOfHeaders sectionAlignment) layouts) sectionAlignment < 2 ^ 32)
    (hRaw : rawTotal fileAlignment (linkerAlignUp sizeOfHeaders fileAlignment) layouts < 2 ^ 32) :
    peLayoutSections layouts sectionAlignment fileAlignment sizeOfHeaders =
      peLayoutExact layouts sectionAlignment fileAlignment sizeOfHeaders := by
  have hTotal := le_linkerAlignUp (rvaTotal sectionAlignment
    (linkerAlignUp sizeOfHeaders sectionAlignment) layouts) sectionAlignment
  have hStartRva := le_rvaTotal sectionAlignment (linkerAlignUp sizeOfHeaders sectionAlignment)
    layouts
  have hStartRaw := le_rawTotal fileAlignment (linkerAlignUp sizeOfHeaders fileAlignment) layouts
  have hStart : peStart toUInt32 sectionAlignment fileAlignment sizeOfHeaders =
      peStart id sectionAlignment fileAlignment sizeOfHeaders := by
    unfold peStart
    rw [toUInt32_of_lt (by omega), toUInt32_of_lt (by omega), id, id]
  have hLoop := peLayoutFrom_toUInt32 layouts
    (peStart id sectionAlignment fileAlignment sizeOfHeaders)
    ⟨Nat.zero_le _, Nat.zero_le _, Nat.zero_le _⟩ (lt_of_le_of_lt hTotal hRva) hRaw
  have hEnd := (exact_cursor sectionAlignment fileAlignment layouts
    (peStart id sectionAlignment fileAlignment sizeOfHeaders)).1
  unfold peLayoutSections peLayoutExact peLayoutWith
  simp only [hStart, hLoop, PeImageLayout.mk.injEq, true_and]
  rw [hEnd]
  exact toUInt32_of_lt hRva

-- ---
-- Collected sections
-- ---

/-- What `pe_collect_sections` promises of a section it hands to the layout. -/
structure Collected (s : PeSectionLayout) : Prop where
  virtualSize_pos : 0 < s.virtualSize
  rawSize_eq : s.source.kind ≠ .bss → s.rawSize = s.source.size

variable {sections : LinkedSections}

theorem collected_of_peCollectFrom (indices : List (Fin 6)) :
    ∀ layouts, peCollectFrom sections indices = .ok layouts → ∀ s ∈ layouts, Collected s := by
  induction indices with
  | nil =>
    intro layouts hOk s hMem
    obtain rfl : [] = layouts := Except.ok.inj hOk
    cases hMem
  | cons k rest ih =>
    intro layouts hOk
    unfold peCollectFrom at hOk
    simp only at hOk
    split at hOk
    · exact ih layouts hOk
    split at hOk
    · cases hOk
    rename_i hSize
    split at hOk
    · cases hOk
    rename_i hVirtual
    cases hRest : peCollectFrom sections rest with
    | error e => rw [hRest] at hOk; cases hOk
    | ok found =>
      rw [hRest] at hOk
      cases hOk
      intro s hMem
      rcases mem_cons.mp hMem with rfl | hMem
      · have hLe : (sections k).virtualSize < 2 ^ 32 := by
          unfold UINT32_MAX at hVirtual
          omega
        refine ⟨?_, ?_⟩
        · show 0 < toUInt32 (sections k).virtualSize
          rw [toUInt32_of_lt hLe]
          omega
        · intro hKind
          have hSizeLe : (sections k).size < 2 ^ 32 := by
            unfold UINT32_MAX at hSize
            have := not_and.mp hSize hKind
            omega
          show (if (sections k).kind = .bss then 0 else toUInt32 (sections k).size) =
            (sections k).size
          rw [if_neg hKind, toUInt32_of_lt hSizeLe]
      · exact ih found hRest s hMem

theorem peCollectSections_ok (hOk : peCollectSections sections = .ok layouts) :
    layouts ≠ [] ∧ ∀ s ∈ layouts, Collected s := by
  unfold peCollectSections at hOk
  cases hFrom : peCollectFrom sections (finRange 6) with
  | error e => rw [hFrom] at hOk; cases hOk
  | ok found =>
    rw [hFrom] at hOk
    cases found with
    | nil => cases hOk
    | cons s rest =>
      cases hOk
      exact ⟨cons_ne_nil _ _, collected_of_peCollectFrom _ _ hFrom⟩

-- ---
-- When an image is well formed
-- ---

section Image

variable {sizeOfHeaders headerBytes : Nat}

theorem wellFormedImage_exact (hCollected : ∀ s ∈ layouts, Collected s) (hSome : layouts ≠ [])
    (hHeaders : headerBytes ≤ sizeOfHeaders)
    (hRound : SizesRound sectionAlignment fileAlignment sizeOfHeaders layouts) :
    WellFormedImage headerBytes sectionAlignment fileAlignment sizeOfHeaders layouts
      (peLayoutExact layouts sectionAlignment fileAlignment sizeOfHeaders) := by
  set start := peStart id sectionAlignment fileAlignment sizeOfHeaders with hStart
  obtain ⟨hPlaced, hPlacedRaw⟩ := exact_placed sectionAlignment fileAlignment layouts start
  have hPos : ∀ t ∈ (peLayoutFrom id sectionAlignment fileAlignment start layouts).1,
      0 < t.virtualSize := by
    intro t hMem
    obtain ⟨s, hIn, -, hSize, -⟩ := exact_mem layouts start t hMem
    rw [hSize]
    exact (hCollected s hIn).virtualSize_pos
  refine ⟨hHeaders, ?_, ?_, hPlaced, ?_, ?_, ?_, ?_, ?_, ?_, rfl⟩
  · exact (exact_rva_aligned_iff layouts hSome start).mpr ⟨hRound.headers_rva, hRound.virtual⟩
  · -- a section that is not empty ends behind its address
    refine (List.Pairwise.and_mem.mp hPlaced).imp ?_
    rintro s t ⟨hMem, -, hLe⟩
    have := hPos s hMem
    omega
  · intro t hMem
    exact le_trans (le_linkerAlignUp _ _) (exact_bounds layouts start t hMem).1
  · intro t hMem
    refine le_trans (exact_bounds layouts start t hMem).2.1 ?_
    rw [← (exact_cursor sectionAlignment fileAlignment layouts start).1]
    exact le_linkerAlignUp _ _
  · exact (exact_raw_aligned_iff layouts start).mpr ⟨hRound.headers_raw, hRound.raw⟩
  · rw [pairwise_filter]
    refine hPlacedRaw.imp ?_
    intro s t hRaw hs ht
    exact hRaw (by simpa using hs) (by simpa using ht)
  · intro t hMem hNonzero
    exact le_trans (le_linkerAlignUp _ _) ((exact_bounds layouts start t hMem).2.2 hNonzero)
  · intro t hMem hKind
    obtain ⟨s, hIn, hSource, -, hRaw⟩ := exact_mem layouts start t hMem
    rw [hSource] at hKind ⊢
    rw [hRaw, ← (hCollected s hIn).rawSize_eq hKind]
    exact le_linkerAlignUp _ _

theorem totals_of_wellFormedImage
    (hWell : WellFormedImage headerBytes sectionAlignment fileAlignment sizeOfHeaders layouts
      (peLayoutSections layouts sectionAlignment fileAlignment sizeOfHeaders)) :
    linkerAlignUp (rvaTotal sectionAlignment (linkerAlignUp sizeOfHeaders sectionAlignment)
        layouts) sectionAlignment < 2 ^ 32 ∧
      rawTotal fileAlignment (linkerAlignUp sizeOfHeaders fileAlignment) layouts < 2 ^ 32 := by
  obtain ⟨hRva, hRaw⟩ := exact_cursor sectionAlignment fileAlignment layouts
    (peStart id sectionAlignment fileAlignment sizeOfHeaders)
  have hImage := congrArg PeImageLayout.sizeOfImage hWell.no_wrap
  have hCursor := congrArg (fun image => image.cursor.currentRaw) hWell.no_wrap
  constructor
  · have hExact : (peLayoutExact layouts sectionAlignment fileAlignment sizeOfHeaders).sizeOfImage =
        linkerAlignUp (rvaTotal sectionAlignment (linkerAlignUp sizeOfHeaders sectionAlignment)
          layouts) sectionAlignment := congrArg (linkerAlignUp · sectionAlignment) hRva
    rw [← hExact, ← hImage]
    exact toUInt32_lt _
  · have hExact : (peLayoutExact layouts sectionAlignment fileAlignment
        sizeOfHeaders).cursor.currentRaw =
          rawTotal fileAlignment (linkerAlignUp sizeOfHeaders fileAlignment) layouts := hRaw
    rw [← hExact, ← hCursor]
    exact currentRaw_lt layouts _ (toUInt32_lt _)

end Image

variable {options : Option PeEmissionOptions}

theorem peAcceptAlignments_pos {sa fa : UInt32}
    (hAlign : peAcceptAlignments options = .ok (sa, fa)) : 0 < fa.toNat := by
  have hFile : (0x200 : UInt32) ≤ fa := by
    cases options with
    | none =>
      cases Except.ok.inj hAlign
      decide
    | some o =>
      simp only [peAcceptAlignments] at hAlign
      by_cases hLess : (if o.sectionAlignment ≥ 0x200 then o.sectionAlignment else 0x1000) <
          (if o.fileAlignment ≥ 0x200 then o.fileAlignment else 0x200)
      · rw [if_pos hLess] at hAlign
        cases hAlign
      · rw [if_neg hLess] at hAlign
        cases Except.ok.inj hAlign
        split
        · assumption
        · decide
  have hLe := UInt32.le_iff_toNat_le.mp hFile
  rw [show (0x200 : UInt32).toNat = 512 from rfl] at hLe
  omega

theorem peHeaderBytes_le_iff (count : Nat) (hPos : 0 < fileAlignment)
    (hLt : fileAlignment < 2 ^ 32) :
    peHeaderBytes count ≤ peSizeOfHeaders count fileAlignment ↔
      linkerAlignUp (peHeaderBytes count) fileAlignment < 2 ^ 32 := by
  have hLe := le_linkerAlignUp (peHeaderBytes count) fileAlignment
  have hUp := linkerAlignUp_lt (peHeaderBytes count) fileAlignment hPos
  constructor
  · intro hFit
    by_contra hWraps
    -- what is lost is at least 2 ^ 32, and rounding added less than that
    have hMod : toUInt32 (linkerAlignUp (peHeaderBytes count) fileAlignment) + 2 ^ 32 ≤
        linkerAlignUp (peHeaderBytes count) fileAlignment := by
      unfold toUInt32
      omega
    unfold peSizeOfHeaders at hFit
    omega
  · intro hFits
    unfold peSizeOfHeaders
    rw [toUInt32_of_lt hFits]
    exact hLe

/-- **When the image is well formed.** For the sections the emitter collects and the
alignments it accepts, the layout is well formed exactly when the sizes round to
multiples of the alignments and the totals fit in 32 bits; nothing checks either. -/
theorem wellFormedImage_iff {sections : LinkedSections} {options : Option PeEmissionOptions}
    {sectionAlignment fileAlignment : UInt32} {layouts : List PeSectionLayout}
    (hAlign : peAcceptAlignments options = .ok (sectionAlignment, fileAlignment))
    (hCollect : peCollectSections sections = .ok layouts) :
    WellFormedImage (peHeaderBytes layouts.length) sectionAlignment.toNat fileAlignment.toNat
        (peSizeOfHeaders layouts.length fileAlignment.toNat) layouts
        (peLayoutSections layouts sectionAlignment.toNat fileAlignment.toNat
          (peSizeOfHeaders layouts.length fileAlignment.toNat)) ↔
      SizesRound sectionAlignment.toNat fileAlignment.toNat
          (linkerAlignUp (peHeaderBytes layouts.length) fileAlignment.toNat) layouts ∧
        TotalsFit sectionAlignment.toNat fileAlignment.toNat (peHeaderBytes layouts.length)
          layouts := by
  obtain ⟨hSome, hCollected⟩ := peCollectSections_ok hCollect
  have hHeaders := peHeaderBytes_le_iff layouts.length
    (peAcceptAlignments_pos hAlign) fileAlignment.toNat_lt
  constructor
  · intro hWell
    have hFits := hHeaders.mp hWell.headers_fit
    have hSize : peSizeOfHeaders layouts.length fileAlignment.toNat =
        linkerAlignUp (peHeaderBytes layouts.length) fileAlignment.toNat := toUInt32_of_lt hFits
    rw [hSize] at hWell
    obtain ⟨hRva, hRaw⟩ := totals_of_wellFormedImage hWell
    have hRvaAligned := hWell.rva_aligned
    have hRawAligned := hWell.raw_aligned
    rw [hWell.no_wrap] at hRvaAligned hRawAligned
    obtain ⟨hStart, hVirtual⟩ := (exact_rva_aligned_iff layouts hSome _).mp hRvaAligned
    obtain ⟨hStartRaw, hRawSizes⟩ := (exact_raw_aligned_iff layouts _).mp hRawAligned
    exact ⟨⟨hStart, hVirtual, hStartRaw, hRawSizes⟩, ⟨hFits, hRva, hRaw⟩⟩
  · rintro ⟨hRound, hFit⟩
    have hSize : peSizeOfHeaders layouts.length fileAlignment.toNat =
        linkerAlignUp (peHeaderBytes layouts.length) fileAlignment.toNat :=
      toUInt32_of_lt hFit.headers
    rw [hSize, peLayoutSections_eq_exact hFit.rva hFit.raw]
    exact wellFormedImage_exact hCollected hSome (le_linkerAlignUp _ _) hRound

/-- A `.text` of one byte and a `.bss` of the given virtual size. -/
def textAndBss (bssSize : Nat) : LinkedSections := fun k =>
  match k with
  | 0 => ⟨.text, ".text", [0xC3], 1, 16, 0, []⟩
  | 3 => ⟨.bss, ".bss", [], bssSize, 16, 0, []⟩
  | _ => ⟨.unknown, "", [], 0, 1, 0, []⟩

/-- The collected sections of `textAndBss`. -/
def textAndBssLayouts (bssSize : Nat) : List PeSectionLayout :=
  [⟨0, ".text", textAndBss bssSize 0, 0x60000020, 0, 1, 0, 1⟩,
    ⟨3, ".bss", textAndBss bssSize 3, 0xC0000080, 0, bssSize, 0, 0⟩]

theorem wellFormedImage_smallBss :
    WellFormedImage (peHeaderBytes 2) 0x1000 0x200 (peSizeOfHeaders 2 0x200)
      (textAndBssLayouts 64) (peLayoutSections (textAndBssLayouts 64) 0x1000 0x200
        (peSizeOfHeaders 2 0x200)) :=
  (wellFormedImage_iff (show peAcceptAlignments none = .ok (0x1000, 0x200) by decide)
    (show peCollectSections (textAndBss 64) = .ok (textAndBssLayouts 64) by decide)).mpr
    ⟨sizesRound_of_powers 12 9 _ _, ⟨by decide, by decide, by decide⟩⟩

/-- **The image size wraps.** A `.bss` of `0xFFFFFFF0` bytes is accepted; its rounded size
is zero in 32 bits, so the image ends where the `.bss` starts. -/
theorem largeBss_notWellFormed : peAcceptAlignments none = .ok (0x1000, 0x200) ∧
      peCollectSections (textAndBss 0xFFFFFFF0) = .ok (textAndBssLayouts 0xFFFFFFF0) ∧
      ¬ WellFormedImage (peHeaderBytes 2) 0x1000 0x200 (peSizeOfHeaders 2 0x200)
        (textAndBssLayouts 0xFFFFFFF0) (peLayoutSections (textAndBssLayouts 0xFFFFFFF0) 0x1000
          0x200 (peSizeOfHeaders 2 0x200)) := by
  refine ⟨by decide, by decide, ?_⟩
  intro hWell
  have hIn := hWell.rva_in_image
  revert hIn
  decide

end Mettle.Linker
