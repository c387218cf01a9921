import Mettle.Lib.Layout

/-!
# Mettle — the layout of declared types

The three routines that size a type: `type_create_struct` of `symbol_table.c`, and
`type_checker_parse_array_type` and `type_checker_build_tagged_enum_type` of `type_checker.c`.
They call each other through the types of fields, elements and payloads, and work in `size_t`.
Only the array routine looks at its product before it multiplies; the sums of the other two
wrap, so a struct of two arrays of `2 ^ 63` bytes has size zero.
-/

namespace Mettle.Semantic

open Mettle.Lib List

-- ---
-- Types with their layout
-- ---

/-- The range of `size_t`. -/
def SIZE_RANGE : Nat := 2 ^ 64

/-- The types `type_checker_init_builtin_types` creates. -/
inductive Builtin where
  | int8 | int16 | int32 | int64
  | uint8 | uint16 | uint32 | uint64
  | bool | float32 | float64
  | string | cstring | void
  deriving DecidableEq

def Builtin.extent : Builtin → Extent
  | .int8 | .uint8 | .bool => ⟨1, 1⟩
  | .int16 | .uint16 => ⟨2, 2⟩
  | .int32 | .uint32 | .float32 => ⟨4, 4⟩
  | .int64 | .uint64 | .float64 | .cstring => ⟨8, 8⟩
  | .string => ⟨16, 8⟩
  | .void => ⟨0, 1⟩

/-- A `Type` as the checker has built it: the fields that its kind uses. -/
inductive BuiltType where
  | builtin (kind : Builtin)
  | pointer (name : String) (baseType : BuiltType)
  | functionPointer (fnParamTypes : List BuiltType) (fnReturnType : BuiltType)
  | enum (name : String)
  | array (name : String) (baseType : BuiltType) (arraySize : Nat) (extent : Extent)
  | struct (name : String) (fieldNames : List String) (fieldTypes : List BuiltType)
      (fieldOffsets : List Nat) (extent : Extent)
  | taggedEnum (name : String) (variantNames : List String)
      (variantPayloads : List (Option BuiltType)) (dataOffset dataSize : Nat) (extent : Extent)

namespace BuiltType

/-- `type->size` and `type->alignment`. -/
def extent : BuiltType → Extent
  | .builtin kind => kind.extent
  | .pointer _ _ | .functionPointer _ _ | .enum _ => ⟨8, 8⟩
  | .array _ _ _ extent => extent
  | .struct _ _ _ _ extent => extent
  | .taggedEnum _ _ _ _ _ extent => extent

def size (type : BuiltType) : Nat := type.extent.size

def alignment (type : BuiltType) : Nat := type.extent.alignment

end BuiltType

-- ---
-- The three routines
-- ---

/-- The loop's `if (field_alignment > max_alignment)`, over all fields. -/
def maxAlignment (extents : List Extent) : Nat :=
  extents.foldl (fun alignment e => if e.alignment > alignment then e.alignment else alignment) 1

/-- The offsets, the size and the alignment `type_create_struct` computes. -/
def structLayout (extents : List Extent) : List Nat × Extent :=
  let fields := wrappedFrom SIZE_RANGE 0 extents
  let alignment := maxAlignment extents
  (fields.1, ⟨(fields.2 + padding fields.2 alignment) % SIZE_RANGE, alignment⟩)

/-- A record of at least one field. -/
def typeCreateStruct (name : String) (fieldNames : List String) (fieldTypes : List BuiltType) :
    Option BuiltType :=
  if fieldTypes.isEmpty then none
  else
    let layout := structLayout (fieldTypes.map BuiltType.extent)
    some (.struct name fieldNames fieldTypes layout.1 layout.2)

/-- `type_checker_parse_array_type`, from the element type and the count on. -/
def typeCreateArray (name : String) (baseType : BuiltType) (arraySize : Nat) : Option BuiltType :=
  if arraySize = 0 ∨ SIZE_RANGE - 1 < arraySize then none
  else if 0 < baseType.size ∧ (SIZE_RANGE - 1) / baseType.size < arraySize then none
  else
    some (.array name baseType arraySize
      ⟨baseType.size * arraySize % SIZE_RANGE, baseType.alignment⟩)

/-- The loop's `if (payload_ty->size > max_payload_size)`. -/
def maxPayloadSize (extents : List Extent) : Nat :=
  extents.foldl (fun size e => if e.size > size then e.size else size) 0

/-- What `type_checker_build_tagged_enum_type` computes from its payloads: the offset of the
payload area, its size, and the extent of the enum. -/
def taggedEnumLayout (payloads : List Extent) : Nat × Nat × Extent :=
  let maxSize := maxPayloadSize payloads
  let maxAlign := maxAlignment payloads
  let dataAlign := if maxAlign < 4 then 4 else maxAlign
  let dataOffset := maskDown 64 ((4 + (dataAlign - 1)) % SIZE_RANGE) dataAlign
  let total := if maxSize > 0 then (dataOffset + maxSize) % SIZE_RANGE else dataOffset
  let rounded := maskDown 64 ((total + (dataAlign - 1)) % SIZE_RANGE) dataAlign
  (dataOffset, maxSize, ⟨if rounded < 8 then 8 else rounded, dataAlign⟩)

def payloadExtents (variantPayloads : List (Option BuiltType)) : List Extent :=
  (variantPayloads.filterMap id).map BuiltType.extent

/-- A tag and the largest payload. -/
def typeCheckerBuildTaggedEnumType (name : String) (variantNames : List String)
    (variantPayloads : List (Option BuiltType)) : BuiltType :=
  let layout := taggedEnumLayout (payloadExtents variantPayloads)
  .taggedEnum name variantNames variantPayloads layout.1 layout.2.1 layout.2.2

/-- The types the checker accepts: what the routines make of accepted types. -/
inductive Accepted : BuiltType → Prop where
  | builtin (kind : Builtin) : Accepted (.builtin kind)
  | pointer {name : String} {baseType : BuiltType} (hBase : Accepted baseType) :
      Accepted (.pointer name baseType)
  | functionPointer {parameters : List BuiltType} {returnType : BuiltType}
      (hParameters : ∀ p ∈ parameters, Accepted p) (hReturn : Accepted returnType) :
      Accepted (.functionPointer parameters returnType)
  | enum (name : String) : Accepted (.enum name)
  | array {name : String} {baseType type : BuiltType} {arraySize : Nat}
      (hBase : Accepted baseType) (hType : typeCreateArray name baseType arraySize = some type) :
      Accepted type
  | struct (name : String) (fieldNames : List String) {fieldTypes : List BuiltType}
      {type : BuiltType} (hFields : ∀ t ∈ fieldTypes, Accepted t)
      (hType : typeCreateStruct name fieldNames fieldTypes = some type) : Accepted type
  | taggedEnum (name : String) (variantNames : List String)
      {variantPayloads : List (Option BuiltType)}
      (hPayloads : ∀ t, some t ∈ variantPayloads → Accepted t) :
      Accepted (typeCheckerBuildTaggedEnumType name variantNames variantPayloads)

-- ---
-- What a sound layout is
-- ---

/-- `alignment` is the largest of `alignments`. -/
def IsLargest (alignment : Nat) (alignments : List Nat) : Prop :=
  alignment ∈ alignments ∧ ∀ a ∈ alignments, a ≤ alignment

def exactStructSize (extents : List Extent) : Nat :=
  roundUp (endFrom 0 extents) (maxAlignment extents)

def exactEnumSize (payloads : List Extent) : Nat :=
  let dataAlign := max 4 (maxAlignment payloads)
  max 8 (roundUp (roundUp 4 dataAlign + maxPayloadSize payloads) dataAlign)

def SoundHere : BuiltType → Prop
  | .struct _ _ fieldTypes fieldOffsets extent =>
    let extents := fieldTypes.map BuiltType.extent
    Placed extents fieldOffsets extent.size ∧ extent.alignment ∣ extent.size ∧
      IsLargest extent.alignment (extents.map Extent.alignment) ∧
      fieldOffsets = offsetsFrom 0 extents ∧ extent.size = exactStructSize extents
  | .array _ baseType arraySize extent =>
    extent.size = baseType.size * arraySize ∧ extent.alignment = baseType.alignment ∧
      extent.alignment ∣ extent.size ∧
      ∀ i < arraySize, baseType.alignment ∣ i * baseType.size ∧
        i * baseType.size + baseType.size ≤ extent.size
  | .taggedEnum _ _ variantPayloads dataOffset dataSize extent =>
    let payloads := payloadExtents variantPayloads
    4 ≤ dataOffset ∧ dataOffset + dataSize ≤ extent.size ∧
      (∀ e ∈ payloads, e.alignment ∣ dataOffset ∧ e.size ≤ dataSize) ∧
      extent.alignment ∣ extent.size ∧
      IsLargest extent.alignment (4 :: payloads.map Extent.alignment) ∧
      extent.size = exactEnumSize payloads
  | _ => True

/-- The types a type's storage is made of. -/
inductive Part : BuiltType → BuiltType → Prop where
  | refl (type : BuiltType) : Part type type
  | field {part type : BuiltType} {name : String} {fieldNames : List String}
      {fieldTypes : List BuiltType} {fieldOffsets : List Nat} {extent : Extent}
      (hMem : type ∈ fieldTypes) (hPart : Part part type) :
      Part part (.struct name fieldNames fieldTypes fieldOffsets extent)
  | element {part baseType : BuiltType} {name : String} {arraySize : Nat} {extent : Extent}
      (hPart : Part part baseType) : Part part (.array name baseType arraySize extent)
  | payload {part type : BuiltType} {name : String} {variantNames : List String}
      {variantPayloads : List (Option BuiltType)} {dataOffset dataSize : Nat} {extent : Extent}
      (hMem : some type ∈ variantPayloads) (hPart : Part part type) :
      Part part (.taggedEnum name variantNames variantPayloads dataOffset dataSize extent)

def LayoutSound (type : BuiltType) : Prop := ∀ part, Part part type → SoundHere part

mutual

def exactSize : BuiltType → Nat
  | .builtin kind => kind.extent.size
  | .pointer _ _ | .functionPointer _ _ | .enum _ => 8
  | .array _ baseType arraySize _ => exactSize baseType * arraySize
  | .struct _ _ fieldTypes _ _ => exactStructSize (exactExtents fieldTypes)
  | .taggedEnum _ _ variantPayloads _ _ _ => exactEnumSize (exactPayloads variantPayloads)

def exactExtents : List BuiltType → List Extent
  | [] => []
  | type :: types => ⟨exactSize type, type.alignment⟩ :: exactExtents types

def exactPayloads : List (Option BuiltType) → List Extent
  | [] => []
  | none :: payloads => exactPayloads payloads
  | some type :: payloads => ⟨exactSize type, type.alignment⟩ :: exactPayloads payloads

end

/-- A type and all its parts have a size that a `size_t` can hold. -/
def Fits (type : BuiltType) : Prop := ∀ part, Part part type → exactSize part < SIZE_RANGE

theorem exactExtents_eq (types : List BuiltType) :
    exactExtents types = types.map fun type => ⟨exactSize type, type.alignment⟩ := by
  induction types with
  | nil => rfl
  | cons type types ih => rw [exactExtents, ih, map_cons]

theorem exactPayloads_eq (variantPayloads : List (Option BuiltType)) :
    exactPayloads variantPayloads =
      (variantPayloads.filterMap id).map fun type => ⟨exactSize type, type.alignment⟩ := by
  induction variantPayloads with
  | nil => rfl
  | cons payload payloads ih =>
    cases payload with
    | none => rw [exactPayloads, ih, filterMap_cons_none rfl]
    | some type => rw [exactPayloads, ih, filterMap_cons_some (by rfl), map_cons]

-- ---
-- Alignments
-- ---

theorem foldl_larger {α : Type} (f : α → Nat) (l : List α) (start : Nat) :
    let largest := l.foldl (fun n a => if f a > n then f a else n) start
    start ≤ largest ∧ (∀ a ∈ l, f a ≤ largest) ∧ (largest = start ∨ ∃ a ∈ l, f a = largest) := by
  induction l generalizing start with
  | nil => exact ⟨le_refl _, nofun, .inl rfl⟩
  | cons a l ih =>
    obtain ⟨hStart, hAll, hOne⟩ := ih (if f a > start then f a else start)
    have hStep : start ≤ (if f a > start then f a else start) ∧
        f a ≤ (if f a > start then f a else start) := by split <;> omega
    refine ⟨hStep.1.trans hStart, ?_, ?_⟩
    · intro b hMem
      rcases mem_cons.mp hMem with rfl | hRest
      · exact hStep.2.trans hStart
      · exact hAll b hRest
    · rcases hOne with hEq | ⟨b, hMem, hEq⟩
      · by_cases hLarger : f a > start
        · exact .inr ⟨a, mem_cons_self, by rw [foldl_cons, hEq, if_pos hLarger]⟩
        · exact .inl (by rw [foldl_cons, hEq, if_neg hLarger])
      · exact .inr ⟨b, mem_cons_of_mem a hMem, hEq⟩

variable {extents : List Extent}

theorem maxAlignment_dvd (h : ∀ e ∈ extents, e.alignment ∣ 8) : maxAlignment extents ∣ 8 := by
  obtain ⟨-, -, hOne | ⟨e, hMem, hEq⟩⟩ := foldl_larger Extent.alignment extents 1
  · rw [maxAlignment, hOne]
    exact one_dvd 8
  · rw [maxAlignment, ← hEq]
    exact h e hMem

theorem le_maxAlignment {e : Extent} (h : e ∈ extents) : e.alignment ≤ maxAlignment extents :=
  (foldl_larger Extent.alignment extents 1).2.1 e h

theorem one_le_maxAlignment (extents : List Extent) : 1 ≤ maxAlignment extents :=
  (foldl_larger Extent.alignment extents 1).1

theorem maxAlignment_mem (h : 1 < maxAlignment extents) :
    maxAlignment extents ∈ extents.map Extent.alignment := by
  obtain ⟨-, -, hOne | ⟨e, hMem, hEq⟩⟩ := foldl_larger Extent.alignment extents 1
  · exact absurd hOne (ne_of_gt h)
  · exact mem_map.mpr ⟨e, hMem, hEq⟩

theorem le_maxPayloadSize {e : Extent} (h : e ∈ extents) : e.size ≤ maxPayloadSize extents :=
  (foldl_larger Extent.size extents 0).2.1 e h

theorem isLargest_maxAlignment (hNonempty : extents ≠ []) (hPos : ∀ e ∈ extents, 0 < e.alignment) :
    IsLargest (maxAlignment extents) (extents.map Extent.alignment) := by
  refine ⟨?_, fun a hMem => ?_⟩
  · rcases (one_le_maxAlignment extents).lt_or_eq with hLess | hOne
    · exact maxAlignment_mem hLess
    · obtain ⟨e, hMem⟩ := exists_mem_of_ne_nil extents hNonempty
      have hEq : e.alignment = maxAlignment extents :=
        le_antisymm (le_maxAlignment hMem) (hOne ▸ hPos e hMem)
      exact mem_map.mpr ⟨e, hMem, hEq⟩
  · obtain ⟨e, hExtent, rfl⟩ := mem_map.mp hMem
    exact le_maxAlignment hExtent

theorem dvd_of_le_of_dvd_eight {a b : Nat} (ha : a ∣ 8) (hb : b ∣ 8) (hLe : a ≤ b) : a ∣ b := by
  have hAll : ∀ a < 9, ∀ b < 9, a ∣ 8 → b ∣ 8 → a ≤ b → a ∣ b := by decide
  exact hAll a (Nat.lt_succ_of_le (Nat.le_of_dvd (by decide) ha)) b
    (Nat.lt_succ_of_le (Nat.le_of_dvd (by decide) hb)) ha hb hLe

variable {payloads : List Extent}

theorem dataAlign_eq (h : ∀ e ∈ payloads, e.alignment ∣ 8) :
    let dataAlign := max 4 (maxAlignment payloads)
    (if maxAlignment payloads < 4 then 4 else maxAlignment payloads) = dataAlign ∧
      (dataAlign = 4 ∨ dataAlign = 8) := by
  have hDvd := maxAlignment_dvd h
  generalize maxAlignment payloads = a at hDvd
  have hAll : ∀ a < 9, a ∣ 8 → (if a < 4 then 4 else a) = max 4 a ∧ (max 4 a = 4 ∨ max 4 a = 8) := by
    decide
  exact hAll a (Nat.lt_succ_of_le (Nat.le_of_dvd (by decide) hDvd)) hDvd

variable {type : BuiltType}
variable {baseType : BuiltType} {arraySize : Nat} {name : String}

theorem typeCreateArray_eq_some (h : typeCreateArray name baseType arraySize = some type) :
    0 < arraySize ∧ baseType.size * arraySize < SIZE_RANGE ∧
      type = .array name baseType arraySize ⟨baseType.size * arraySize, baseType.alignment⟩ := by
  unfold typeCreateArray at h
  split_ifs at h with hCount hProduct
  have hFits : baseType.size * arraySize < SIZE_RANGE := by
    rcases Nat.eq_zero_or_pos baseType.size with hZero | hPos
    · rw [hZero, Nat.zero_mul]
      decide
    · have hLe : arraySize ≤ (SIZE_RANGE - 1) / baseType.size :=
        Nat.le_of_not_lt fun hLess => hProduct ⟨hPos, hLess⟩
      have := (Nat.le_div_iff_mul_le hPos).mp hLe
      rw [Nat.mul_comm]
      exact Nat.lt_of_le_pred (by decide) this
  rw [Nat.mod_eq_of_lt hFits] at h
  exact ⟨by omega, hFits, (Option.some.inj h).symm⟩

theorem typeCreateArray_some (name : String) (hCount : 0 < arraySize ∧ arraySize < SIZE_RANGE)
    (hProduct : baseType.size * arraySize < SIZE_RANGE) :
    typeCreateArray name baseType arraySize =
      some (.array name baseType arraySize ⟨baseType.size * arraySize, baseType.alignment⟩) := by
  have hPred : baseType.size * arraySize ≤ SIZE_RANGE - 1 := Nat.le_pred_of_lt hProduct
  unfold typeCreateArray
  rw [if_neg (by omega), if_neg, Nat.mod_eq_of_lt hProduct]
  rintro ⟨hPos, hLess⟩
  rw [Nat.div_lt_iff_lt_mul hPos, Nat.mul_comm] at hLess
  exact absurd hPred (Nat.not_le_of_lt hLess)

variable {fieldTypes : List BuiltType} {fieldNames : List String}

theorem typeCreateStruct_eq_some (h : typeCreateStruct name fieldNames fieldTypes = some type) :
    fieldTypes ≠ [] ∧
      type = .struct name fieldNames fieldTypes (structLayout (fieldTypes.map BuiltType.extent)).1
        (structLayout (fieldTypes.map BuiltType.extent)).2 := by
  unfold typeCreateStruct at h
  split_ifs at h with hEmpty
  exact ⟨fun hNil => hEmpty (by rw [hNil]; rfl), (Option.some.inj h).symm⟩

variable {types : List BuiltType}

theorem extents_dvd (h : ∀ t ∈ types, t.alignment ∣ 8) :
    ∀ e ∈ types.map BuiltType.extent, e.alignment ∣ 8 := by
  intro e hMem
  obtain ⟨t, hType, rfl⟩ := mem_map.mp hMem
  exact h t hType

variable {variantPayloads : List (Option BuiltType)}

theorem mem_payloads {t : BuiltType} (h : t ∈ variantPayloads.filterMap id) :
    some t ∈ variantPayloads := by
  obtain ⟨_, hMem, rfl⟩ := mem_filterMap.mp h
  exact hMem

theorem accepted_alignment (h : Accepted type) : type.alignment ∣ 8 := by
  induction h with
  | builtin kind => cases kind <;> decide
  | pointer | functionPointer | enum => exact dvd_refl 8
  | array hBase hType ih =>
    obtain ⟨-, -, rfl⟩ := typeCreateArray_eq_some hType
    exact ih
  | struct name fieldNames hFields hType ih =>
    obtain ⟨-, rfl⟩ := typeCreateStruct_eq_some hType
    exact maxAlignment_dvd (extents_dvd ih)
  | @taggedEnum name variantNames variantPayloads hPayloads ih =>
    have hAll : ∀ e ∈ payloadExtents variantPayloads, e.alignment ∣ 8 :=
      extents_dvd fun t hMem => ih t (mem_payloads hMem)
    obtain ⟨hEq, hCases⟩ := dataAlign_eq hAll
    show (if maxAlignment (payloadExtents variantPayloads) < 4 then 4
      else maxAlignment (payloadExtents variantPayloads)) ∣ 8
    rw [hEq]
    rcases hCases with h | h
    · rw [h]
      decide
    · rw [h]

-- ---
-- One routine
-- ---

theorem struct_sound_iff (name : String) (fieldNames : List String) (hNonempty : fieldTypes ≠ [])
    (hAlign : ∀ t ∈ fieldTypes, t.alignment ∣ 8) :
    SoundHere (.struct name fieldNames fieldTypes (structLayout (fieldTypes.map BuiltType.extent)).1
        (structLayout (fieldTypes.map BuiltType.extent)).2) ↔
      exactStructSize (fieldTypes.map BuiltType.extent) < SIZE_RANGE := by
  have hDvd := extents_dvd hAlign
  have hExtents : fieldTypes.map BuiltType.extent ≠ [] := by simpa using hNonempty
  simp only [SoundHere]
  generalize fieldTypes.map BuiltType.extent = extents at hDvd hExtents ⊢
  have hPos : ∀ e ∈ extents, 0 < e.alignment :=
    fun e hMem => Nat.pos_of_dvd_of_pos (hDvd e hMem) (by decide)
  constructor
  · rintro ⟨-, -, -, -, hSize⟩
    rw [← hSize]
    exact Nat.mod_lt _ (by decide)
  · intro hFits
    have hEnd : endFrom 0 extents < SIZE_RANGE := (le_roundUp _ _).trans_lt hFits
    have hLayout : structLayout extents =
        (offsetsFrom 0 extents, ⟨exactStructSize extents, maxAlignment extents⟩) := by
      have hSize : (endFrom 0 extents + padding (endFrom 0 extents) (maxAlignment extents)) %
          SIZE_RANGE = exactStructSize extents := Nat.mod_eq_of_lt hFits
      simp only [structLayout, wrappedFrom_eq hEnd, hSize]
    rw [hLayout]
    exact ⟨(placed_offsetsFrom 0 extents hPos).mono (le_roundUp _ _),
      dvd_roundUp _ (one_le_maxAlignment extents), isLargest_maxAlignment hExtents hPos, rfl, rfl⟩

theorem array_sound (hSize : baseType.alignment ∣ baseType.size) :
    SoundHere (.array name baseType arraySize ⟨baseType.size * arraySize, baseType.alignment⟩) := by
  refine ⟨rfl, rfl, Dvd.dvd.mul_right hSize arraySize, fun i hLess => ⟨?_, ?_⟩⟩
  · exact Dvd.dvd.mul_left hSize i
  · calc i * baseType.size + baseType.size = (i + 1) * baseType.size := (Nat.succ_mul _ _).symm
      _ ≤ arraySize * baseType.size := Nat.mul_le_mul_right _ hLess
      _ = baseType.size * arraySize := Nat.mul_comm _ _

theorem maskDown_add {n a : Nat} (hAlign : a = 4 ∨ a = 8) (hFits : roundUp n a < SIZE_RANGE) :
    maskDown 64 ((n + (a - 1)) % SIZE_RANGE) a = roundUp n a := by
  obtain ⟨k, hk, rfl⟩ : ∃ k ≤ 3, a = 2 ^ k := by
    rcases hAlign with rfl | rfl
    · exact ⟨2, by decide, rfl⟩
    · exact ⟨3, by decide, rfl⟩
  have hPos := Nat.two_pow_pos k
  have hDvd : 2 ^ k ∣ SIZE_RANGE := Nat.pow_dvd_pow 2 (by omega)
  have hLess : n + (2 ^ k - 1) < SIZE_RANGE := by
    by_contra hOver
    obtain ⟨m, hm⟩ := hDvd
    rw [roundUp_eq_div n hPos] at hFits
    have hLe : m ≤ (n + (2 ^ k - 1)) / 2 ^ k := by
      rw [Nat.le_div_iff_mul_le hPos, Nat.mul_comm, ← hm]
      exact Nat.le_of_not_lt hOver
    have := Nat.mul_le_mul_right (2 ^ k) hLe
    rw [Nat.mul_comm m, ← hm] at this
    exact absurd hFits (Nat.not_lt_of_le this)
  rw [Nat.mod_eq_of_lt hLess, maskDown_eq hLess (by omega), roundUp_eq_div n hPos]

theorem taggedEnumLayout_size_lt (payloads : List Extent) :
    (taggedEnumLayout payloads).2.2.size < SIZE_RANGE := by
  have hAll : ∀ n < SIZE_RANGE, (if n < 8 then 8 else n) < SIZE_RANGE := by
    intro n hLess
    split
    · decide
    · exact hLess
  exact hAll _ ((maskDown_le 64 _ _).trans_lt (Nat.mod_lt _ (by decide)))

theorem taggedEnumLayout_eq (hDvd : ∀ e ∈ payloads, e.alignment ∣ 8)
    (hFits : exactEnumSize payloads < SIZE_RANGE) :
    taggedEnumLayout payloads = (roundUp 4 (max 4 (maxAlignment payloads)), maxPayloadSize payloads,
        ⟨exactEnumSize payloads, max 4 (maxAlignment payloads)⟩) := by
  obtain ⟨hAlign, hCases⟩ := dataAlign_eq hDvd
  have hOffset : roundUp 4 (max 4 (maxAlignment payloads)) < SIZE_RANGE := by
    rcases hCases with h | h <;> rw [h] <;> decide
  have hRounded : roundUp (roundUp 4 (max 4 (maxAlignment payloads)) + maxPayloadSize payloads)
      (max 4 (maxAlignment payloads)) < SIZE_RANGE := (le_max_right _ _).trans_lt hFits
  have hTotal : (if maxPayloadSize payloads > 0 then
      (roundUp 4 (max 4 (maxAlignment payloads)) + maxPayloadSize payloads) % SIZE_RANGE
      else roundUp 4 (max 4 (maxAlignment payloads))) =
        roundUp 4 (max 4 (maxAlignment payloads)) + maxPayloadSize payloads := by
    split
    · exact Nat.mod_eq_of_lt ((le_roundUp _ _).trans_lt hRounded)
    · omega
  simp only [taggedEnumLayout, hAlign, maskDown_add hCases hOffset, hTotal,
    maskDown_add hCases hRounded]
  have hEight : ∀ n : Nat, (if n < 8 then 8 else n) = max 8 n := by
    intro n
    split <;> omega
  rw [hEight]
  rfl

theorem taggedEnum_sound_iff (name : String) (variantNames : List String)
    (hAlign : ∀ t, some t ∈ variantPayloads → t.alignment ∣ 8) :
    SoundHere (typeCheckerBuildTaggedEnumType name variantNames variantPayloads) ↔
      exactEnumSize (payloadExtents variantPayloads) < SIZE_RANGE := by
  have hDvd : ∀ e ∈ payloadExtents variantPayloads, e.alignment ∣ 8 :=
    extents_dvd fun t hMem => hAlign t (mem_payloads hMem)
  simp only [typeCheckerBuildTaggedEnumType, SoundHere]
  generalize payloadExtents variantPayloads = payloads at hDvd
  constructor
  · rintro ⟨-, -, -, -, -, hSize⟩
    rw [← hSize]
    exact taggedEnumLayout_size_lt payloads
  · intro hFits
    obtain ⟨-, hCases⟩ := dataAlign_eq hDvd
    have hEight : max 4 (maxAlignment payloads) ∣ 8 := by
      rcases hCases with h | h
      · rw [h]
        decide
      · rw [h]
    have hPos : 0 < max 4 (maxAlignment payloads) := by omega
    rw [taggedEnumLayout_eq hDvd hFits]
    refine ⟨le_roundUp _ _, ?_, ?_, ?_, ⟨?_, ?_⟩, rfl⟩
    · exact (le_roundUp _ _).trans (le_max_right _ _)
    · intro e hMem
      refine ⟨?_, le_maxPayloadSize hMem⟩
      exact (dvd_of_le_of_dvd_eight (hDvd e hMem) hEight
        ((le_maxAlignment hMem).trans (le_max_right _ _))).trans (dvd_roundUp _ hPos)
    · show max 4 (maxAlignment payloads) ∣ exactEnumSize payloads
      rw [exactEnumSize]
      rcases max_choice 8 (roundUp (roundUp 4 (max 4 (maxAlignment payloads)) +
        maxPayloadSize payloads) (max 4 (maxAlignment payloads))) with h | h
      · rw [h]
        exact hEight
      · rw [h]
        exact dvd_roundUp _ hPos
    · show max 4 (maxAlignment payloads) ∈ _
      rcases max_choice 4 (maxAlignment payloads) with h | h
      · rw [h]
        exact mem_cons_self
      · rcases Nat.lt_or_ge 1 (maxAlignment payloads) with hLess | hOne
        · rw [h]
          exact mem_cons_of_mem 4 (maxAlignment_mem hLess)
        · omega
    · intro a hMem
      show a ≤ max 4 (maxAlignment payloads)
      rcases mem_cons.mp hMem with rfl | hPayload
      · exact le_max_left _ _
      · obtain ⟨e, hExtent, rfl⟩ := mem_map.mp hPayload
        exact (le_maxAlignment hExtent).trans (le_max_right _ _)

-- ---
-- All parts of a type
-- ---

variable {extent : Extent}

section
variable {P : BuiltType → Prop}

theorem forall_part_struct {fieldOffsets : List Nat} :
    (∀ part, Part part (.struct name fieldNames fieldTypes fieldOffsets extent) → P part) ↔
      P (.struct name fieldNames fieldTypes fieldOffsets extent) ∧
        ∀ type ∈ fieldTypes, ∀ part, Part part type → P part := by
  refine ⟨fun h => ⟨h _ (.refl _), fun type hMem part hPart => h part (.field hMem hPart)⟩, ?_⟩
  rintro ⟨hSelf, hFields⟩ part hPart
  cases hPart with
  | refl => exact hSelf
  | field hMem hPart => exact hFields _ hMem part hPart

theorem forall_part_array : (∀ part, Part part (.array name baseType arraySize extent) → P part) ↔
      P (.array name baseType arraySize extent) ∧ ∀ part, Part part baseType → P part := by
  refine ⟨fun h => ⟨h _ (.refl _), fun part hPart => h part (.element hPart)⟩, ?_⟩
  rintro ⟨hSelf, hBase⟩ part hPart
  cases hPart with
  | refl => exact hSelf
  | element hPart => exact hBase part hPart

theorem forall_part_taggedEnum {variantNames : List String} {dataOffset dataSize : Nat} :
    (∀ part, Part part (.taggedEnum name variantNames variantPayloads dataOffset dataSize extent) →
        P part) ↔
      P (.taggedEnum name variantNames variantPayloads dataOffset dataSize extent) ∧
        ∀ type, some type ∈ variantPayloads → ∀ part, Part part type → P part := by
  refine ⟨fun h => ⟨h _ (.refl _), fun type hMem part hPart => h part (.payload hMem hPart)⟩, ?_⟩
  rintro ⟨hSelf, hPayloads⟩ part hPart
  cases hPart with
  | refl => exact hSelf
  | payload hMem hPart => exact hPayloads _ hMem part hPart

theorem forall_part_builtin {kind : Builtin} :
    (∀ part, Part part (.builtin kind) → P part) ↔ P (.builtin kind) := by
  refine ⟨fun h => h _ (.refl _), fun hSelf part hPart => ?_⟩
  cases hPart
  exact hSelf

theorem forall_part_pointer :
    (∀ part, Part part (.pointer name baseType) → P part) ↔ P (.pointer name baseType) := by
  refine ⟨fun h => h _ (.refl _), fun hSelf part hPart => ?_⟩
  cases hPart
  exact hSelf

theorem forall_part_functionPointer {parameters : List BuiltType} {returnType : BuiltType} :
    (∀ part, Part part (.functionPointer parameters returnType) → P part) ↔
      P (.functionPointer parameters returnType) := by
  refine ⟨fun h => h _ (.refl _), fun hSelf part hPart => ?_⟩
  cases hPart
  exact hSelf

theorem forall_part_enum : (∀ part, Part part (.enum name) → P part) ↔ P (.enum name) := by
  refine ⟨fun h => h _ (.refl _), fun hSelf part hPart => ?_⟩
  cases hPart
  exact hSelf

end

theorem alignment_dvd_size (h : SoundHere type) : type.alignment ∣ type.size := by
  cases type with
  | builtin kind => cases kind <;> decide
  | pointer | functionPointer | enum => exact dvd_refl 8
  | array => exact h.2.2.1
  | struct => exact h.2.1
  | taggedEnum => exact h.2.2.2.1

theorem map_extent_eq (h : ∀ t ∈ types, t.size = exactSize t) :
    types.map BuiltType.extent = types.map fun t => ⟨exactSize t, t.alignment⟩ :=
  map_congr_left fun t hMem => by rw [← h t hMem]; rfl

theorem accepted_sound_iff (hAccepted : Accepted type) :
    (LayoutSound type ↔ Fits type) ∧ (Fits type → type.size = exactSize type) := by
  induction hAccepted with
  | builtin kind =>
    refine ⟨?_, fun _ => rfl⟩
    rw [LayoutSound, Fits, forall_part_builtin, forall_part_builtin]
    exact iff_of_true trivial (by cases kind <;> decide)
  | pointer hBase =>
    refine ⟨?_, fun _ => rfl⟩
    rw [LayoutSound, Fits, forall_part_pointer, forall_part_pointer]
    exact iff_of_true trivial (by decide : 8 < SIZE_RANGE)
  | functionPointer hParameters hReturn =>
    refine ⟨?_, fun _ => rfl⟩
    rw [LayoutSound, Fits, forall_part_functionPointer, forall_part_functionPointer]
    exact iff_of_true trivial (by decide : 8 < SIZE_RANGE)
  | enum name =>
    refine ⟨?_, fun _ => rfl⟩
    rw [LayoutSound, Fits, forall_part_enum, forall_part_enum]
    exact iff_of_true trivial (by decide : 8 < SIZE_RANGE)
  | array hBase hType ih =>
    obtain ⟨-, hProduct, rfl⟩ := typeCreateArray_eq_some hType
    rw [LayoutSound, Fits, forall_part_array, forall_part_array]
    refine ⟨⟨?_, ?_⟩, fun hFits => ?_⟩
    · rintro ⟨-, hSound⟩
      have hFits := ih.1.mp hSound
      exact ⟨by rw [exactSize, ← ih.2 hFits]; exact hProduct, hFits⟩
    · rintro ⟨-, hFits⟩
      have hSound := ih.1.mpr hFits
      exact ⟨array_sound (alignment_dvd_size (hSound _ (.refl _))), hSound⟩
    · rw [exactSize, ← ih.2 hFits.2]
      rfl
  | @struct name fieldNames fieldTypes type hFields hType ih =>
    obtain ⟨hNonempty, rfl⟩ := typeCreateStruct_eq_some hType
    have hHere := struct_sound_iff name fieldNames hNonempty
      fun t hMem => accepted_alignment (hFields t hMem)
    have hExact : (∀ t ∈ fieldTypes, Fits t) → exactStructSize (fieldTypes.map BuiltType.extent) =
          exactStructSize (exactExtents fieldTypes) := fun hFits => by
      rw [exactExtents_eq, map_extent_eq fun t hMem => (ih t hMem).2 (hFits t hMem)]
    rw [LayoutSound, Fits, forall_part_struct, forall_part_struct, hHere, exactSize]
    refine ⟨⟨?_, ?_⟩, ?_⟩
    · rintro ⟨hSize, hSound⟩
      have hFits : ∀ t ∈ fieldTypes, Fits t := fun t hMem => (ih t hMem).1.mp (hSound t hMem)
      exact ⟨hExact hFits ▸ hSize, hFits⟩
    · rintro ⟨hSize, hFits⟩
      exact ⟨(hExact hFits).symm ▸ hSize, fun t hMem => (ih t hMem).1.mpr (hFits t hMem)⟩
    · rintro ⟨hSize, hFits⟩
      have hSound := hHere.mpr ((hExact hFits).symm ▸ hSize)
      exact hSound.2.2.2.2.trans (hExact hFits)
  | @taggedEnum name variantNames variantPayloads hPayloads ih =>
    have hHere := taggedEnum_sound_iff name variantNames
      fun t hMem => accepted_alignment (hPayloads t hMem)
    have hExact : (∀ t, some t ∈ variantPayloads → Fits t) →
        exactEnumSize (payloadExtents variantPayloads) =
          exactEnumSize (exactPayloads variantPayloads) := fun hFits => by
      rw [exactPayloads_eq, payloadExtents,
        map_extent_eq fun t hMem => (ih t (mem_payloads hMem)).2 (hFits t (mem_payloads hMem))]
    have hSize : exactSize (typeCheckerBuildTaggedEnumType name variantNames variantPayloads) =
        exactEnumSize (exactPayloads variantPayloads) := by
      rw [typeCheckerBuildTaggedEnumType, exactSize]
    rw [LayoutSound, Fits, typeCheckerBuildTaggedEnumType, forall_part_taggedEnum,
      forall_part_taggedEnum, ← typeCheckerBuildTaggedEnumType, hHere, hSize]
    refine ⟨⟨?_, ?_⟩, ?_⟩
    · rintro ⟨hSize, hSound⟩
      have hFits : ∀ t, some t ∈ variantPayloads → Fits t :=
        fun t hMem => (ih t hMem).1.mp (hSound t hMem)
      exact ⟨hExact hFits ▸ hSize, hFits⟩
    · rintro ⟨hSize, hFits⟩
      exact ⟨(hExact hFits).symm ▸ hSize, fun t hMem => (ih t hMem).1.mpr (hFits t hMem)⟩
    · rintro ⟨hSize, hFits⟩
      have hSound := hHere.mpr ((hExact hFits).symm ▸ hSize)
      exact hSound.2.2.2.2.2.trans (hExact hFits)

-- ---
-- The result
-- ---

/-- **The layout of an accepted type is sound if and only if it fits.** The type and all types
its storage is made of have, in unbounded numbers, sizes below `2 ^ 64`. Arrays are checked, so
only a struct or a tagged enum can go wrong. -/
theorem layout_sound_iff (type : BuiltType) (hAccepted : Accepted type) :
    LayoutSound type ↔ Fits type :=
  (accepted_sound_iff hAccepted).1

theorem layout_sound_iff_record :
    ∃ type, Accepted type ∧ (LayoutSound type ↔ Fits type) ∧ type.extent = ⟨16, 4⟩ := by
  have hWords := Accepted.array (.builtin .int16)
    (typeCreateArray_some "int16[5]" (by decide) (by decide : 2 * 5 < SIZE_RANGE))
  have hRecord := Accepted.struct "Record" ["flag", "items"]
    (forall_mem_cons.mpr ⟨.builtin .uint8, forall_mem_singleton.mpr hWords⟩) rfl
  have hPayloads : ∀ t, Accepted t → ∀ s, some s ∈ [none, some t] → Accepted s := by
    intro t hType s hMem
    obtain rfl : s = t := by simpa using hMem
    exact hType
  have hEnum := Accepted.taggedEnum "Message" ["Empty", "Full"] (hPayloads _ hRecord)
  exact ⟨_, hEnum, layout_sound_iff _ hEnum, by decide⟩

/-- `struct Halves { a: uint8[9223372036854775808]; b: uint8[9223372036854775808]; }` is accepted
with size zero: its second field lies outside of it. -/
theorem halves_not_sound : ¬ ∀ type, Accepted type → LayoutSound type := by
  have hHalf := Accepted.array (.builtin .uint8)
    (typeCreateArray_some "uint8[9223372036854775808]" (by decide)
      (by decide : 1 * 2 ^ 63 < SIZE_RANGE))
  have hHalves := Accepted.struct "Halves" ["a", "b"]
    (forall_mem_cons.mpr ⟨hHalf, forall_mem_singleton.mpr hHalf⟩) rfl
  intro hAll
  have hHere := hAll _ hHalves (.struct "Halves" ["a", "b"] _ _ _) (.refl _)
  have hInside := hHere.1.inside 1 ⟨2 ^ 63, 1⟩ (2 ^ 63) (by decide) (by decide)
  exact absurd hInside (by decide)

end Mettle.Semantic
