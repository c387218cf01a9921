import Mettle.Codegen.BinaryEmitter
import Mettle.Semantic.EmbeddedFiles

/-!
# Mettle — string literals in the object

`code_generator_binary_emit_string_literal_value_address` puts the characters of
a literal, a terminator and the `string` structure into `.rdata`: a pointer, by a
relocation, and the length, which is `strlen` of the text. Every copy of the text
on the way there (`ast_create_string_literal`, `ir_operand_string`) is by
`strdup`, which keeps what `strlen` sees.

The instruction that takes the address of the structure is left out.
-/

namespace Mettle.Codegen

open Mettle.Lib Mettle.Linker Mettle.Parser Mettle.Semantic List Option
open Mettle.Lexing (Text)

-- ---
-- Emitting a string
-- ---

def bytesOf (t : Text) : List UInt8 := t.map fun c => UInt8.ofNat c.toNat

/-- The part of `CodeGenerator` that string literals use. -/
structure StringGenerator where
  emitter : BinaryEmitter
  currentLabelId : Nat

/-- `code_generator_generate_label`, with the number the counter has. -/
def generateLabel (stem : String) (id : Nat) : CString := cLit ("L" ++ stem) ++ decimal id

structure EmittedString where
  sectionIndex : Nat
  charsLabel : CString
  structLabel : CString
  charsOffset : Nat
  structOffset : Nat
  length : Nat

def sectionSize (emitter : BinaryEmitter) (i : Nat) : Option Nat :=
  emitter.sections[i]?.map fun section_ => section_.data.length

/-- `memcpy` into the data of a section. -/
def patchSection (emitter : BinaryEmitter) (i offset : Nat) (bytes : List UInt8) :
    BinaryEmitter :=
  { emitter with
    sections := emitter.sections.modify i fun section_ =>
      { section_ with data := patch section_.data offset bytes } }

def rdataName : CString := cLit ".rdata"

/-- `code_generator_binary_emit_string_literal_value_address`. -/
def emitStringLiteral (generator : StringGenerator) (value : Text) :
    Option (StringGenerator × EmittedString) := do
  let charsLabel := generateLabel "str_chars" generator.currentLabelId
  let structLabel := generateLabel "str_struct" (generator.currentLabelId + 1)
  let (emitter, found) :=
    binaryEmitterGetOrCreateSection generator.emitter rdataName .rdata 0 8
  let rdata ← found
  let bytes := bytesOf (Lexing.cString value)
  let charsOffset ← sectionSize emitter rdata
  let emitter ← binaryEmitterAppendBytes emitter rdata bytes
  let emitter ← binaryEmitterAppendBytes emitter rdata [0]
  let emitter ← binaryEmitterDefineSymbol emitter charsLabel .local (some rdata) charsOffset
    (bytes.length + 1)
  let emitter ← binaryEmitterAlignSection emitter rdata 8 0
  let structOffset ← sectionSize emitter rdata
  let emitter ← binaryEmitterAppendZeros emitter rdata 16
  let emitter := patchSection emitter rdata (structOffset + 8) (leBytes 8 bytes.length)
  let emitter ← binaryEmitterDefineSymbol emitter structLabel .local (some rdata) structOffset 16
  let emitter ← binaryEmitterAddRelocation emitter rdata structOffset .addr64 charsLabel 0
  some (⟨emitter, generator.currentLabelId + 2⟩,
    ⟨rdata, charsLabel, structLabel, charsOffset, structOffset, bytes.length⟩)

def emitStrings (generator : StringGenerator) :
    List Text → Option (StringGenerator × List EmittedString)
  | [] => some (generator, [])
  | value :: values => do
    let (generator, first) ← emitStringLiteral generator value
    let (generator, others) ← emitStrings generator values
    some (generator, first :: others)

-- ---
-- The string at run time
-- ---

/-- The `string` value of an emitted string: its length, and the bytes where its
pointer points. -/
structure RunTimeString (emitter : BinaryEmitter) (s : EmittedString) (length : Nat)
    (contents : List UInt8) : Prop where
  stored : ∃ section_, emitter.sections[s.sectionIndex]? = some section_ ∧
    s.structOffset + 16 ≤ section_.data.length ∧
    leNat (slice section_.data (s.structOffset + 8) 8) = length ∧
    slice section_.data s.charsOffset contents.length = contents
  pointer : ⟨s.sectionIndex, s.structOffset, .addr64, s.charsLabel, 0⟩ ∈ emitter.relocations
  chars : ∃ size, ⟨s.charsLabel, .local, some s.sectionIndex, s.charsOffset, size⟩ ∈ emitter.symbols
  struct_ : ∃ size,
    ⟨s.structLabel, .local, some s.sectionIndex, s.structOffset, size⟩ ∈ emitter.symbols

/-- The characters of two strings do not share storage. -/
def StoredApart (s t : EmittedString) : Prop :=
  s.sectionIndex ≠ t.sectionIndex ∨ s.charsOffset + s.length + 1 ≤ t.charsOffset ∨
      t.charsOffset + t.length + 1 ≤ s.charsOffset

/-- Every `import_str` is replaced, and every literal and every embedded file is a
string of its length with its bytes and a zero byte. -/
def StringsCarried (files : Text → Option Text) (generator : StringGenerator) (program : Tree) :
    Prop :=
  let processed := (processImportStrs files program).1
  importStrs processed = [] ∧
    ∃ behind emitted, emitStrings generator (strings processed) = some (behind, emitted) ∧
      List.Forall₂ (fun s t => RunTimeString behind.emitter s t.length (bytesOf t ++ [0])) emitted
        (wantedStrings files program) ∧
      emitted.Pairwise StoredApart

-- ---
-- Labels
-- ---

def decimalValue (digits : List UInt8) : Nat :=
  digits.foldl (fun value digit => 10 * value + (digit.toNat - 48)) 0

theorem decimalValue_decimal (n : Nat) : decimalValue (decimal n) = n := by
  have hDigit : ∀ d, d < 10 → (UInt8.ofNat (48 + d)).toNat - 48 = d := by
    intro d hd
    rw [UInt8.toNat_ofNat', Nat.mod_eq_of_lt (by omega)]
    omega
  induction n using decimal.induct with
  | case1 n hSmall =>
    rw [decimal, if_pos hSmall, decimalValue, foldl_cons, foldl_nil, hDigit n hSmall]
    omega
  | case2 n hLarge ih =>
    rw [decimal, if_neg hLarge, decimalValue, foldl_append, ← decimalValue, ih,
      foldl_cons, foldl_nil, hDigit _ (Nat.mod_lt n (by decide))]
    omega

theorem generateLabel_injective {stem : String} {a b : Nat}
    (h : generateLabel stem a = generateLabel stem b) : a = b := by
  have hDigits := append_cancel_left h
  rw [← decimalValue_decimal a, hDigits, decimalValue_decimal]

theorem chars_ne_struct (a b : Nat) : generateLabel "str_chars" a ≠ generateLabel "str_struct" b := by
  intro h
  have hFifth := congrArg (·[5]?) h
  have hChars : (cLit ("L" ++ "str_chars")).length = 10 := by decide
  have hStruct : (cLit ("L" ++ "str_struct")).length = 11 := by decide
  simp only [generateLabel] at hFifth
  rw [getElem?_append_left (by omega), getElem?_append_left (by omega)] at hFifth
  revert hFifth
  decide

theorem generateLabel_ne_nil (stem : String) (id : Nat) : generateLabel stem id ≠ [] := by
  unfold generateLabel cLit
  simp

-- ---
-- The section
-- ---

/-- Section `i` is the first one of the name, and holds these bytes. -/
def RdataAt (emitter : BinaryEmitter) (i : Nat) (data : List UInt8) : Prop :=
  (∃ section_, emitter.sections[i]? = some section_ ∧ section_.name = rdataName ∧
    section_.data = data) ∧
  ∀ (j : Nat) section_, j < i → emitter.sections[j]? = some section_ → section_.name ≠ rdataName

def SameTables (e e' : BinaryEmitter) : Prop :=
  e'.symbols = e.symbols ∧ e'.relocations = e.relocations

/-- Only section `i` was worked on. -/
structure Filled (i : Nat) (e e' : BinaryEmitter) : Prop where
  symbols : e'.symbols = e.symbols
  relocations : e'.relocations = e.relocations
  others : ∀ j, j ≠ i → e'.sections[j]? = e.sections[j]?

theorem filled_set (e : BinaryEmitter) (i : Nat) (newSection : BinarySection) :
    Filled i e { e with sections := e.sections.set i newSection } where
  symbols := rfl
  relocations := rfl
  others _ hj := getElem?_set_ne hj.symm

section

variable {e e' : BinaryEmitter} {i : Nat} {data : List UInt8}

theorem RdataAt.length_lt (h : RdataAt e i data) : i < e.sections.length := by
  obtain ⟨⟨section_, hAt, -⟩, -⟩ := h
  exact (List.getElem_of_getElem? hAt).1

theorem RdataAt.sectionSize (h : RdataAt e i data) : sectionSize e i = some data.length := by
  obtain ⟨⟨section_, hAt, -, rfl⟩, -⟩ := h
  rw [Codegen.sectionSize, hAt, map_some]

theorem RdataAt.set {newSection : BinarySection} (h : RdataAt e i data)
    (hName : newSection.name = rdataName) :
    RdataAt { e with sections := e.sections.set i newSection } i newSection.data := by
  refine ⟨⟨newSection, ?_, hName, rfl⟩, fun j section_ hj hAt => h.2 j section_ hj ?_⟩
  · exact getElem?_set_self h.length_lt
  · rw [getElem?_set_ne (by omega)] at hAt
    exact hAt

theorem RdataAt.append (h : RdataAt e i data) (bytes : List UInt8) :
    ∃ e', binaryEmitterAppendBytes e i bytes = some e' ∧ RdataAt e' i (data ++ bytes) ∧
      Filled i e e' := by
  obtain ⟨⟨section_, hAt, hName, rfl⟩, -⟩ := id h
  refine ⟨{ e with sections := e.sections.set i (section_.append bytes) },
    by rw [binaryEmitterAppendBytes, hAt], ?_, filled_set ..⟩
  exact @RdataAt.set _ _ _ (section_.append bytes) h hName

theorem RdataAt.align (h : RdataAt e i data) :
    ∃ e' pad, binaryEmitterAlignSection e i 8 0 = some e' ∧ RdataAt e' i (data ++ pad) ∧
      Filled i e e' := by
  obtain ⟨⟨section_, hAt, hName, rfl⟩, -⟩ := id h
  let aligned : BinarySection := { section_ with alignment := max section_.alignment 8 }
  by_cases hRemainder : section_.data.length % 8 = 0
  · refine ⟨{ e with sections := e.sections.set i aligned }, [], ?_, ?_, filled_set ..⟩
    · rw [binaryEmitterAlignSection, hAt]
      simp only [OfNat.ofNat_ne_zero, if_false, hRemainder, if_true]
      rfl
    · rw [append_nil]
      exact @RdataAt.set _ _ _ aligned h hName
  · let padding := replicate (8 - section_.data.length % 8) (0 : UInt8)
    refine ⟨{ e with sections := e.sections.set i (aligned.append padding) }, padding, ?_, ?_,
      filled_set ..⟩
    · rw [binaryEmitterAlignSection, hAt]
      simp only [OfNat.ofNat_ne_zero, if_false, hRemainder]
      rfl
    · exact @RdataAt.set _ _ _ (aligned.append padding) h hName

theorem RdataAt.patch (h : RdataAt e i data) (offset : Nat) (bytes : List UInt8) :
    RdataAt (patchSection e i offset bytes) i (patch data offset bytes) ∧
      Filled i e (patchSection e i offset bytes) := by
  obtain ⟨⟨section_, hAt, hName, rfl⟩, -⟩ := id h
  have hModify : patchSection e i offset bytes = { e with
      sections := e.sections.set i
        { section_ with data := Lib.patch section_.data offset bytes } } := by
    rw [patchSection, modify_eq_set_getElem?]
    rw [hAt]
    rfl
  rw [hModify]
  exact ⟨@RdataAt.set _ _ _ { section_ with data := Lib.patch section_.data offset bytes } h hName,
    filled_set ..⟩

theorem rdata_getOrCreate (e : BinaryEmitter) :
    ∃ e' i data, binaryEmitterGetOrCreateSection e rdataName .rdata 0 8 = (e', some i) ∧
      RdataAt e' i data ∧ SameTables e e' ∧
      ∀ (j : Nat) section_, e.sections[j]? = some section_ →
        ∃ section', e'.sections[j]? = some section' ∧ section'.data = section_.data := by
  unfold binaryEmitterGetOrCreateSection
  cases hFound : e.sections.findIdx? (fun section_ => section_.name == rdataName) with
  | some i =>
    obtain ⟨hInside, hHas, hFirst⟩ := List.findIdx?_eq_some_iff_getElem.mp hFound
    have hNamed : e.sections[i].name = rdataName := by simpa using hHas
    have hModified : ∀ j, (e.sections.modify i (·.refine 0 8))[j]? =
        (e.sections[j]?).map fun section_ =>
          if i = j then section_.refine 0 8 else section_ := by
      intro j
      split <;> simp_all
    refine ⟨_, i, e.sections[i].data, rfl, ⟨⟨e.sections[i].refine 0 8, ?_, hNamed, rfl⟩, ?_⟩,
      ⟨rfl, rfl⟩, ?_⟩
    · rw [hModified, List.getElem?_eq_getElem hInside, Option.map_some, if_pos rfl]
    · intro j section_ hj hAt
      rw [hModified] at hAt
      obtain ⟨old, hOld, rfl⟩ := Option.map_eq_some_iff.mp hAt
      obtain ⟨hBound, rfl⟩ := List.getElem_of_getElem? hOld
      have hOther : ¬ i = j := by omega
      simpa [hOther] using hFirst j hj
    · intro j section_ hAt
      refine ⟨_, by rw [hModified, hAt, Option.map_some], ?_⟩
      split <;> rfl
  | none =>
    have hNone := List.findIdx?_eq_none_iff.mp hFound
    let created : BinarySection :=
      { name := rdataName, kind := .rdata, characteristics := 0, alignment := 8, data := [],
        virtualSize := 0 }
    refine ⟨{ e with sections := e.sections ++ [created] }, e.sections.length, [], rfl,
      ⟨⟨created, by simp, rfl, rfl⟩, ?_⟩, ⟨rfl, rfl⟩, ?_⟩
    · intro j section_ hj hAt
      rw [List.getElem?_append_left hj] at hAt
      simpa using hNone section_ (List.mem_of_getElem? hAt)
    · intro j section_ hAt
      exact ⟨section_, by
        rw [List.getElem?_append_left (List.getElem_of_getElem? hAt).1, hAt], rfl⟩

end

-- ---
-- One string
-- ---

/-- What an emitter still holds after strings with labels from `n` on. -/
structure Grown (n : Nat) (e e' : BinaryEmitter) : Prop where
  sections : ∀ (j : Nat) section_, e.sections[j]? = some section_ →
    ∃ section' extra, e'.sections[j]? = some section' ∧ section'.data = section_.data ++ extra
  relocations : ∀ relocation ∈ e.relocations, relocation ∈ e'.relocations
  symbols : ∀ symbol ∈ e.symbols, (∀ id, n ≤ id → symbol.name ≠ generateLabel "str_chars" id ∧
    symbol.name ≠ generateLabel "str_struct" id) → symbol ∈ e'.symbols

theorem Grown.refl (n : Nat) (e : BinaryEmitter) : Grown n e e where
  sections _ section_ h := ⟨section_, [], h, (append_nil _).symm⟩
  relocations _ h := h
  symbols _ h _ := h

theorem Grown.trans {m n : Nat} {e₁ e₂ e₃ : BinaryEmitter} (h : Grown m e₁ e₂)
    (h' : Grown n e₂ e₃) (hLe : m ≤ n) : Grown m e₁ e₃ where
  sections j section_ hAt := by
    obtain ⟨middle, extra, hMiddle, hData⟩ := h.sections j section_ hAt
    obtain ⟨last, more, hLast, hData'⟩ := h'.sections j middle hMiddle
    exact ⟨last, extra ++ more, hLast, by rw [hData', hData, append_assoc]⟩
  relocations r hr := h'.relocations r (h.relocations r hr)
  symbols symbol hMem hOther :=
    h'.symbols symbol (h.symbols symbol hMem hOther) fun id hId => hOther id (hLe.trans hId)

theorem defineSymbol_spec (e : BinaryEmitter) {name : CString} (hName : name ≠ [])
    (binding : BinarySymbolBinding) (sectionIndex : Option Nat) (value size : Nat) :
    ∃ e', binaryEmitterDefineSymbol e name binding sectionIndex value size = some e' ∧
      e'.sections = e.sections ∧ e'.relocations = e.relocations ∧
      ⟨name, binding, sectionIndex, value, size⟩ ∈ e'.symbols ∧
      ∀ symbol ∈ e.symbols, symbol.name ≠ name → symbol ∈ e'.symbols := by
  unfold binaryEmitterDefineSymbol
  rw [if_neg hName]
  cases hFound : binaryEmitterFindSymbolIndex e name with
  | none =>
    exact ⟨_, rfl, rfl, rfl, mem_append_right _ (mem_singleton.mpr rfl),
      fun symbol hMem _ => mem_append_left _ hMem⟩
  | some i =>
    have hIndex : ∃ hi : i < e.symbols.length, (e.symbols[i].name == name) = true := by
      unfold binaryEmitterFindSymbolIndex at hFound
      split at hFound
      · cases hFound
      · next k hk =>
        split_ifs at hFound
        cases hFound
        obtain ⟨hi, hHas, -⟩ := findIdx?_eq_some_iff_getElem.mp hk
        exact ⟨hi, hHas⟩
    obtain ⟨hi, hHas⟩ := hIndex
    refine ⟨_, rfl, rfl, rfl, mem_set hi _, fun symbol hMem hOther => ?_⟩
    obtain ⟨j, hj, rfl⟩ := getElem_of_mem hMem
    have hDifferent : i ≠ j := by
      rintro rfl
      exact hOther (by simpa using hHas)
    refine mem_iff_getElem.mpr ⟨j, by rw [length_set]; exact hj, ?_⟩
    rw [getElem_set_ne hDifferent]

@[simp] theorem length_bytesOf (t : Text) : (bytesOf t).length = t.length := length_map _

theorem slices_of_string (old chars pad : List UInt8) :
    let data := Lib.patch (old ++ chars ++ [0] ++ pad ++ replicate 16 0)
      ((old ++ chars ++ [0] ++ pad).length + 8) (leBytes 8 chars.length)
    data = old ++ (chars ++ [0] ++ pad ++ replicate 8 0 ++ leBytes 8 chars.length) ∧
      slice data old.length (chars.length + 1) = chars ++ [0] ∧
      slice data ((old ++ chars ++ [0] ++ pad).length + 8) 8 = leBytes 8 chars.length := by
  intro data
  have hPatch : data = old ++ chars ++ [0] ++ pad ++ replicate 8 0 ++ leBytes 8 chars.length := by
    show Lib.patch _ _ _ = _
    rw [Lib.patch, show (16 : Nat) = 8 + 8 from rfl, replicate_add, ← append_assoc,
      take_left' (by rw [length_append, length_replicate]), drop_eq_nil_of_le,
      append_nil]
    simp only [length_append, length_replicate, length_leBytes]
    omega
  refine ⟨by rw [hPatch]; simp only [append_assoc], ?_, ?_⟩
  · rw [hPatch, append_assoc, append_assoc, append_assoc, append_assoc old,
      slice_append_skip (Nat.le_refl _), Nat.sub_self, ← append_assoc]
    exact slice_append_first (by simp)
  · rw [hPatch]
    have hEnd := @slice_append_at _ (old ++ chars ++ [0] ++ pad ++ replicate 8 0)
      (leBytes 8 chars.length) [] ((old ++ chars ++ [0] ++ pad).length + 8) 8
      (by simp only [length_append, length_replicate]) (length_leBytes 8 _).symm
    rwa [append_nil] at hEnd

structure Placed (n : Nat) (e e' : BinaryEmitter) (s : EmittedString) (value : Text) : Prop where
  charsLabel : s.charsLabel = generateLabel "str_chars" n
  structLabel : s.structLabel = generateLabel "str_struct" (n + 1)
  length : s.length = (Lexing.cString value).length
  grown : Grown n e e'
  string : RunTimeString e' s ((Lexing.cString value).length % 2 ^ 64)
    (bytesOf (Lexing.cString value) ++ [0])
  after : ∀ section_, e.sections[s.sectionIndex]? = some section_ →
    section_.data.length ≤ s.charsOffset
  before : ∀ section_, e'.sections[s.sectionIndex]? = some section_ →
    s.charsOffset + s.length + 1 ≤ section_.data.length

/-- **One string**: it is always emitted, behind what the section holds. -/
theorem emitStringLiteral_spec (generator : StringGenerator) (value : Text) :
    ∃ behind s, emitStringLiteral generator value = some (behind, s) ∧
      behind.currentLabelId = generator.currentLabelId + 2 ∧
      Placed generator.currentLabelId generator.emitter behind.emitter s value := by
  obtain ⟨e₁, i, old, hCreate, hAt₁, hTables₁, hKept₁⟩ := rdata_getOrCreate generator.emitter
  obtain ⟨chars, hCharsEq⟩ : ∃ chars, bytesOf (Lexing.cString value) = chars := ⟨_, rfl⟩
  obtain ⟨e₂, hAppend₂, hAt₂, hTables₂⟩ := hAt₁.append chars
  obtain ⟨e₃, hAppend₃, hAt₃, hTables₃⟩ := hAt₂.append [0]
  obtain ⟨charsLabel, hCharsLabel⟩ : ∃ l, generateLabel "str_chars" generator.currentLabelId = l :=
    ⟨_, rfl⟩
  obtain ⟨structLabel, hStructLabel⟩ :
      ∃ l, generateLabel "str_struct" (generator.currentLabelId + 1) = l := ⟨_, rfl⟩
  have hCharsName : charsLabel ≠ [] := hCharsLabel ▸ generateLabel_ne_nil _ _
  have hStructName : structLabel ≠ [] := hStructLabel ▸ generateLabel_ne_nil _ _
  obtain ⟨e₄, hDefine₄, hSections₄, hRelocations₄, hSymbol₄, hOthers₄⟩ :=
    defineSymbol_spec e₃ hCharsName .local (some i) old.length (chars.length + 1)
  have hAt₄ : RdataAt e₄ i (old ++ chars ++ [0]) := by
    unfold RdataAt at hAt₃ ⊢
    rwa [hSections₄]
  obtain ⟨e₅, pad, hAlign₅, hAt₅, hTables₅⟩ := hAt₄.align
  obtain ⟨e₆, hAppend₆, hAt₆, hTables₆⟩ := hAt₅.append (replicate 16 0)
  obtain ⟨structOffset, hOffset⟩ : ∃ n, (old ++ chars ++ [0] ++ pad).length = n := ⟨_, rfl⟩
  obtain ⟨hAt₇, hTables₇⟩ := hAt₆.patch (structOffset + 8) (leBytes 8 chars.length)
  obtain ⟨e₈, hDefine₈, hSections₈, hRelocations₈, hSymbol₈, hOthers₈⟩ :=
    defineSymbol_spec (patchSection e₆ i (structOffset + 8) (leBytes 8 chars.length))
      hStructName .local (some i) structOffset 16
  obtain ⟨hData, hChars, hLength⟩ := slices_of_string old chars pad
  rw [hOffset] at hData hChars hLength
  have hAt₈ : RdataAt e₈ i (Lib.patch (old ++ chars ++ [0] ++ pad ++ replicate 16 0)
      (structOffset + 8) (leBytes 8 chars.length)) := by
    unfold RdataAt at hAt₇ ⊢
    rwa [hSections₈]
  have hReloc : binaryEmitterAddRelocation e₈ i structOffset .addr64 charsLabel 0 =
      some { e₈ with relocations :=
        e₈.relocations ++ [⟨i, structOffset, .addr64, charsLabel, 0⟩] } := by
    unfold binaryEmitterAddRelocation
    rw [if_neg]
    exact not_or.mpr ⟨hCharsName, Nat.not_le.mpr hAt₈.length_lt⟩
  let behind : StringGenerator :=
    ⟨{ e₈ with relocations := e₈.relocations ++ [⟨i, structOffset, .addr64, charsLabel, 0⟩] },
      generator.currentLabelId + 2⟩
  let s : EmittedString := ⟨i, charsLabel, structLabel, old.length, structOffset, chars.length⟩
  refine ⟨behind, s, ?_, rfl, ?_⟩
  · simp only [emitStringLiteral, hCharsEq, hCharsLabel, hStructLabel, hCreate,
      bind_eq_bind, bind_some, hAt₁.sectionSize, hAppend₂, hAppend₃, hDefine₄,
      hAlign₅, hAt₅.sectionSize, hOffset, binaryEmitterAppendZeros, hAppend₆, hDefine₈, hReloc]
    rfl
  · -- The sections of the steps in between, all but `i` as they were.
    have hOtherSections : ∀ j, j ≠ i → e₈.sections[j]? = e₁.sections[j]? := by
      intro j hj
      rw [hSections₈, hTables₇.others j hj, hTables₆.others j hj, hTables₅.others j hj,
        hSections₄, hTables₃.others j hj, hTables₂.others j hj]
    obtain ⟨section₁, hSection₁, -, hData₁⟩ := hAt₁.1
    obtain ⟨section₈, hSection₈, -, hData₈⟩ := hAt₈.1
    have hOld : ∀ section_, generator.emitter.sections[i]? = some section_ →
        section_.data = old := by
      intro section_ hAt
      obtain ⟨section', hAt', hSame⟩ := hKept₁ i section_ hAt
      rw [hSection₁] at hAt'
      rw [← hSame, ← some.inj hAt', hData₁]
    have hRelocations : e₈.relocations = generator.emitter.relocations := by
      rw [hRelocations₈, hTables₇.relocations, hTables₆.relocations, hTables₅.relocations,
        hRelocations₄, hTables₃.relocations, hTables₂.relocations, hTables₁.2]
    have hChars₃ : e₃.symbols = generator.emitter.symbols := by
      rw [hTables₃.symbols, hTables₂.symbols, hTables₁.1]
    have hSymbols₇ : (patchSection e₆ i (structOffset + 8) (leBytes 8 chars.length)).symbols =
        e₄.symbols := by
      rw [hTables₇.symbols, hTables₆.symbols, hTables₅.symbols]
    have hLengthNat : chars.length = (Lexing.cString value).length := by
      rw [← hCharsEq, length_bytesOf]
    have hBytes : section₈.data.length =
        old.length + (chars ++ [0] ++ pad ++ replicate 8 0 ++ leBytes 8 chars.length).length := by
      rw [hData₈, hData, length_append]
    simp only [length_append, length_replicate, length_leBytes, length_cons, length_nil] at hBytes
    have hStruct : structOffset = old.length + chars.length + 1 + pad.length := by
      simp only [← hOffset, length_append, length_cons, length_nil]
    refine ⟨hCharsLabel.symm, hStructLabel.symm, hLengthNat, ⟨?_, ?_, ?_⟩,
      ⟨⟨section₈, hSection₈, ?_, ?_, ?_⟩, ?_, ?_, ?_⟩, ?_, ?_⟩
    · intro j section_ hAt
      by_cases hj : j = i
      · subst hj
        exact ⟨section₈, chars ++ [0] ++ pad ++ replicate 8 0 ++ leBytes 8 chars.length,
          hSection₈, by rw [hData₈, hData, hOld section_ hAt]⟩
      · obtain ⟨section', hAt', hSame⟩ := hKept₁ j section_ hAt
        exact ⟨section', [], by rw [← hAt']; exact hOtherSections j hj, by
          rw [append_nil, hSame]⟩
    · intro r hr
      refine mem_append_left _ ?_
      rwa [hRelocations]
    · intro symbol hMem hOther
      refine hOthers₈ symbol ?_ (hStructLabel ▸ (hOther _ (by omega)).2)
      rw [hSymbols₇]
      refine hOthers₄ symbol ?_ (hCharsLabel ▸ (hOther _ (Nat.le_refl _)).1)
      rwa [hChars₃]
    · show structOffset + 16 ≤ section₈.data.length
      omega
    · rw [hData₈, hLength, leNat_leBytes, hLengthNat]
      rfl
    · rw [hCharsEq, length_append, hData₈]
      exact hChars
    · exact mem_append_right _ (mem_singleton.mpr rfl)
    · refine ⟨chars.length + 1, hOthers₈ _ ?_ ?_⟩
      · rw [hSymbols₇]
        exact hSymbol₄
      · show charsLabel ≠ structLabel
        rw [← hCharsLabel, ← hStructLabel]
        exact chars_ne_struct _ _
    · exact ⟨16, hSymbol₈⟩
    · intro section_ hAt
      rw [hOld section_ hAt]
    · intro section_ hAt
      obtain rfl : section₈ = section_ := some.inj (hSection₈.symm.trans hAt)
      show old.length + chars.length + 1 ≤ _
      omega

-- ---
-- All strings
-- ---

/-- The labels of an emitted string have numbers below `n`. -/
def LabelsBelow (n : Nat) (s : EmittedString) : Prop :=
  ∃ k, k + 2 ≤ n ∧ s.charsLabel = generateLabel "str_chars" k ∧
    s.structLabel = generateLabel "str_struct" (k + 1)

theorem RunTimeString.grown {n length : Nat} {e e' : BinaryEmitter} {s : EmittedString}
    {contents : List UInt8} (h : RunTimeString e s length contents)
    (hContents : contents ≠ []) (hLabels : LabelsBelow n s) (hGrown : Grown n e e') :
    RunTimeString e' s length contents := by
  obtain ⟨k, hk, hCharsLabel, hStructLabel⟩ := hLabels
  obtain ⟨⟨section_, hAt, hRoom, hLength, hChars⟩, hPointer, ⟨size, hSymbol⟩, ⟨size', hSymbol'⟩⟩ := h
  obtain ⟨section', extra, hAt', hData⟩ := hGrown.sections _ section_ hAt
  have hInside : s.charsOffset + contents.length ≤ section_.data.length := by
    have hFull := congrArg List.length hChars
    rw [length_slice] at hFull
    have := length_pos_iff.mpr hContents
    omega
  refine ⟨⟨section', hAt', ?_, ?_, ?_⟩, hGrown.relocations _ hPointer, ⟨size, ?_⟩, ⟨size', ?_⟩⟩
  · rw [hData, length_append]
    omega
  · rw [hData, slice_append_in (by omega), hLength]
  · rw [hData, slice_append_in hInside, hChars]
  · refine hGrown.symbols _ hSymbol fun id hId => ⟨?_, ?_⟩
    · rw [hCharsLabel]
      intro hSame
      have := generateLabel_injective hSame
      omega
    · rw [hCharsLabel]
      exact chars_ne_struct _ _
  · refine hGrown.symbols _ hSymbol' fun id hId => ⟨?_, ?_⟩
    · rw [hStructLabel]
      exact (chars_ne_struct _ _).symm
    · rw [hStructLabel]
      intro hSame
      have := generateLabel_injective hSame
      omega

/-- **All strings**, by what one adds and what it leaves: each is there with the
text that `strlen` sees, and no two share storage. -/
theorem emitStrings_spec (generator : StringGenerator) (values : List Text) :
    ∃ behind emitted, emitStrings generator values = some (behind, emitted) ∧
      generator.currentLabelId ≤ behind.currentLabelId ∧
      Grown generator.currentLabelId generator.emitter behind.emitter ∧
      List.Forall₂ (fun s value => s.length = (Lexing.cString value).length ∧
        RunTimeString behind.emitter s ((Lexing.cString value).length % 2 ^ 64)
          (bytesOf (Lexing.cString value) ++ [0])) emitted values ∧
      emitted.Pairwise StoredApart ∧
      ∀ s ∈ emitted, ∀ section_, generator.emitter.sections[s.sectionIndex]? = some section_ →
        section_.data.length ≤ s.charsOffset := by
  induction values generalizing generator with
  | nil =>
    exact ⟨generator, [], rfl, Nat.le_refl _, Grown.refl _ _, .nil, .nil,
      fun s hs => absurd hs not_mem_nil⟩
  | cons value values ih =>
    obtain ⟨middle, s, hFirst, hId, hPlaced⟩ := emitStringLiteral_spec generator value
    obtain ⟨behind, emitted, hOthers, hLater, hGrown, hStrings, hApart, hAfter⟩ := ih middle
    refine ⟨behind, s :: emitted, ?_, by omega, hPlaced.grown.trans hGrown (by omega), ?_, ?_, ?_⟩
    · rw [emitStrings, hFirst]
      simp [hOthers]
    · refine .cons ⟨hPlaced.length, ?_⟩ hStrings
      refine hPlaced.string.grown (by simp) ?_ hGrown
      exact ⟨generator.currentLabelId, by omega, hPlaced.charsLabel, hPlaced.structLabel⟩
    · refine pairwise_cons.mpr ⟨fun t ht => ?_, hApart⟩
      by_cases hSame : s.sectionIndex = t.sectionIndex
      · -- The first string ends where the section ended when the second was added.
        obtain ⟨section_, hAt, -⟩ := hPlaced.string.stored
        have hEnd := hPlaced.before section_ hAt
        have hStart := hAfter t ht section_ (hSame ▸ hAt)
        exact .inr (.inl (hEnd.trans hStart))
      · exact .inl hSame
    · intro t ht section_ hAt
      rcases mem_cons.mp ht with rfl | ht
      · exact hPlaced.after section_ hAt
      · obtain ⟨section', extra, hAt', hData⟩ := hPlaced.grown.sections _ section_ hAt
        have hStart := hAfter t ht section' hAt'
        rw [hData, length_append] at hStart
        omega

-- ---
-- From source to object
-- ---

theorem cString_eq_self_of {t : Text} (h : ∀ c ∈ t, c.toNat ≠ 0) : Lexing.cString t = t :=
  takeWhile_eq_self_iff.mpr fun c hc => decide_eq_true (h c hc)

theorem noZero_of_length_cString {t : Text} (h : t.length ≤ (Lexing.cString t).length) :
    ∀ c ∈ t, c.toNat ≠ 0 := by
  have hPrefix := takeWhile_prefix (l := t) fun c => decide (c.toNat ≠ 0)
  have hAll := hPrefix.eq_of_length_le h
  intro c hc
  rw [← hAll] at hc
  have hTrue := mem_takeWhile_imp (p := fun c : Char => decide (c.toNat ≠ 0)) hc
  exact of_decide_eq_true hTrue

section

variable {files : Text → Option Text} {generator : StringGenerator} {program : Tree}

theorem StringsCarried.noZero (h : StringsCarried files generator program) :
    ∀ t ∈ wantedStrings files program, t.length < 2 ^ 64 ∧ ∀ c ∈ t, c.toNat ≠ 0 := by
  obtain ⟨hReplaced, behind, emitted, hEmit, hRunTime, -⟩ := h
  rw [strings_process hReplaced] at hEmit
  obtain ⟨behind', emitted', hEmit', -, -, hEmitted, -⟩ :=
    emitStrings_spec generator (wantedStrings files program)
  cases some.inj (hEmit.symm.trans hEmit')
  clear hEmit hEmit' hReplaced
  generalize wantedStrings files program = wanted at hRunTime hEmitted
  induction hRunTime with
  | nil => exact fun t ht => absurd ht not_mem_nil
  | @cons s t emitted wanted hHere hRest ih =>
    obtain ⟨hFirst, hOthers⟩ := forall₂_cons.mp hEmitted
    refine forall_mem_cons.mpr ⟨?_, ih hOthers⟩
    obtain ⟨section_, hAt, -, hLength, -⟩ := hHere.stored
    obtain ⟨section', hAt', -, hLength', -⟩ := hFirst.2.stored
    obtain rfl : section_ = section' := some.inj (hAt.symm.trans hAt')
    refine ⟨?_, noZero_of_length_cString (by omega)⟩
    omega

theorem stringsCarried_of_noZero (generator : StringGenerator)
    (hReplaced : importStrs (processImportStrs files program).1 = [])
    (h : ∀ t ∈ wantedStrings files program, t.length < 2 ^ 64 ∧ ∀ c ∈ t, c.toNat ≠ 0) :
    StringsCarried files generator program := by
  obtain ⟨behind, emitted, hEmit, -, -, hEmitted, hApart, -⟩ :=
    emitStrings_spec generator (wantedStrings files program)
  refine ⟨hReplaced, behind, emitted, by rw [strings_process hReplaced]; exact hEmit, ?_, hApart⟩
  clear hEmit hApart hReplaced
  generalize wantedStrings files program = wanted at h hEmitted
  induction hEmitted with
  | nil => exact .nil
  | @cons s t emitted wanted hHere hRest ih =>
    obtain ⟨⟨hRoom, hNoZero⟩, hOthers⟩ := forall_mem_cons.mp h
    refine .cons ?_ (ih hOthers)
    have hString := hHere.2
    rwa [cString_eq_self_of hNoZero, Nat.mod_eq_of_lt hRoom] at hString

end

/-- **Strings.** Every `import_str` is replaced and every string arrives with its
length and its bytes, each in storage of its own, if and only if the walk reaches
every `import_str`, the files can be read, and no string has a zero byte (or more
bytes than a length can count). -/
theorem strings_carried_iff (files : Text → Option Text) (generator : StringGenerator)
    (program : Tree) :
    StringsCarried files generator program ↔
      skipped program = [] ∧ (∀ path ∈ importStrs program, (files (Lexing.cString path)).isSome) ∧
        ∀ t ∈ wantedStrings files program, t.length < 2 ^ 64 ∧ ∀ c ∈ t, c.toNat ≠ 0 := by
  constructor
  · intro h
    obtain ⟨hSkipped, hFiles⟩ := (importStrs_process_eq_nil_iff files program).mp h.1
    exact ⟨hSkipped, hFiles, h.noZero⟩
  · rintro ⟨hSkipped, hFiles, hNoZero⟩
    exact stringsCarried_of_noZero generator
      ((importStrs_process_eq_nil_iff files program).mpr ⟨hSkipped, hFiles⟩) hNoZero

/-- `defer puts(import_str "page");`, in a function. -/
def deferredPage : Tree :=
  .node .program [.node (.functionDeclaration
      { name := "f".toList, parameterNames := [], parameterTypes := [], returnType := none })
    [.node .program [.node .deferStatement [.node (.functionCall "puts".toList [] false)
      [.node (.importStr "page".toList) []]]]]]

/-- `var s: string = "a\0b";` -/
def zeroInside : Tree :=
  .node .program [.node (.varDeclaration "s".toList (some "string".toList) false)
    [.node (.stringLiteral ['a', Char.ofNat 0, 'b']) []]]

/-- Neither is carried: the `import_str` stays, the literal is cut at its zero. -/
theorem not_stringsCarried :
    ¬ StringsCarried (fun _ => some "x".toList) ⟨binaryEmitterCreate, 0⟩ deferredPage ∧
      ¬ StringsCarried (fun _ => none) ⟨binaryEmitterCreate, 0⟩ zeroInside := by
  constructor
  · rintro ⟨hReplaced, -⟩
    revert hReplaced
    decide
  · intro h
    exact (h.noZero ['a', Char.ofNat 0, 'b'] mem_cons_self).2 (Char.ofNat 0) (by decide) (by decide)

end Mettle.Codegen
