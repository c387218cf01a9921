import Mettle.Linker.CoffSafety

/-!
# Mettle — the reader of import libraries

The model of `linker/import_lib.c`: `import_library_read` walks over the members of an archive
and takes a symbol from every member that starts like a short import of an AMD64 function. As
in `CoffSafety` every access to the file is checked (`Checked`), and the member loop has a
number of rounds; a fault or a loop that does not end would be `none`. Offsets stay inside the
file, so the `SIZE_MAX` checks of the source cannot fire and are left out.

The members that serve the linker are to be told by their names, `/` and `//`. The name is
trimmed of blanks *and slashes* before, so none of them is ever recognised
(`isSpecial_trimmed`), and the version of the header, which tells an import from an object with
an extended header, is not looked at. Such members are taken for imports if their first
bytes look like one.
-/

namespace Mettle.Linker

open Mettle.Lib List

-- ---
-- The reader
-- ---

def IMPORT_ARCHIVE_MEMBER_HEADER_SIZE : Nat := 60
def IMPORT_OBJECT_HEADER_SIZE : Nat := 20
def IMPORT_OBJECT_NAME_TYPE_ORDINAL : Nat := 0

/-- An import of the archive. -/
structure ImportLibrarySymbol where
  symbolName : CString
  dllName : CString
  machine : Nat
  ordinalOrHint : Nat
  importType : Nat
  nameType : Nat
  isOrdinal : Bool
  deriving DecidableEq

/-- The fields of an `ImportObjectHeader` that are read. -/
structure ImportObjectHeader where
  sig1 : Nat
  sig2 : Nat
  machine : Nat
  ordinalOrHint : Nat
  typeInfo : Nat
  deriving DecidableEq

/-- `isspace` in the C locale. -/
def isSpace (b : UInt8) : Bool := b == 32 || (9 ≤ b && b ≤ 13)

/-- `strtoull(text, &end, 10)` on at most ten characters: the number and the text at `end`. -/
def strtoull (text : CString) : Nat × CString :=
  let body := text.dropWhile isSpace
  let negative := body.head? == some 45
  let number := if body.head? == some 45 || body.head? == some 43 then body.tail else body
  let digits := number.takeWhile isDigit
  if digits = [] then (0, text)
  else
    let value := decimalValue digits
    (if negative then (2 ^ 64 - value) % 2 ^ 64 else value, number.dropWhile isDigit)

/-- The decimal size of a member. -/
def importLibraryParseArchiveMemberSize (header : List UInt8) : Except String Nat :=
  let (parsed, rest) := strtoull (cString (slice header 48 10))
  if rest.dropWhile isSpace = [] then .ok parsed
  else .error "Malformed import library member size"

/-- The members of the archive itself. -/
def importLibraryMemberNameIsSpecial (memberName : CString) : Bool :=
  memberName == cLit "/" || memberName == cLit "//" || memberName == cLit "/<XFGHASHMAP>/"

/-- The name without padding. -/
def importLibraryTrimMemberName (memberName : CString) : CString :=
  (memberName.reverse.dropWhile fun b => b == 32 || b == 47).reverse

/-- The fields of an import header. -/
def importLibraryParseImportHeader (header : List UInt8) : ImportObjectHeader where
  sig1 := linkerReadU16 header 0
  sig2 := linkerReadU16 header 2
  machine := linkerReadU16 header 6
  ordinalOrHint := linkerReadU16 header 16
  typeInfo := linkerReadU16 header 18

/-- The names of the symbol and of its library. -/
def importLibraryParseStrings (member : List UInt8) : Except String (CString × CString) :=
  let strings := member.drop IMPORT_OBJECT_HEADER_SIZE
  let symbolName := cString strings
  if symbolName.length ≥ strings.length then
    .error "Import library member is missing the symbol name"
  else
    let rest := strings.drop (symbolName.length + 1)
    let dllName := cString rest
    if dllName.length ≥ rest.length then .error "Import library member is missing the DLL name"
    else .ok (symbolName, dllName)

/-- The symbol of `import_library_append_symbol`. -/
def importLibrarySymbol (header : ImportObjectHeader) (symbolName dllName : CString) :
    ImportLibrarySymbol :=
  let nameType := header.typeInfo / 4 % 8
  { symbolName, dllName
    machine := header.machine
    ordinalOrHint := header.ordinalOrHint
    importType := header.typeInfo % 4
    nameType
    isOrdinal := nameType == IMPORT_OBJECT_NAME_TYPE_ORDINAL }

def ImportObjectHeader.isImport (header : ImportObjectHeader) : Bool :=
  header.sig1 == 0 && header.sig2 == 0xFFFF && header.machine == COFF_MACHINE_AMD64

def importLibraryReadSymbol (file : List UInt8) (memberName : CString)
    (memberDataOffset memberSize : Nat) : Checked (Option ImportLibrarySymbol) :=
  if importLibraryMemberNameIsSpecial memberName ∨ memberSize < IMPORT_OBJECT_HEADER_SIZE then
    pure none
  else do
    let bytes ← access file memberDataOffset IMPORT_OBJECT_HEADER_SIZE
    let header := importLibraryParseImportHeader bytes
    if header.isImport then do
      let member ← access file memberDataOffset memberSize
      let names ← Checked.of (importLibraryParseStrings member)
      pure (some (importLibrarySymbol header names.1 names.2))
    else pure none

def importLibraryReadMember (path : String) (file : List UInt8) (offset : Nat) :
    Checked (Option ImportLibrarySymbol × Nat) := do
  let memberHeader ← access file offset IMPORT_ARCHIVE_MEMBER_HEADER_SIZE
  if slice memberHeader 58 2 ≠ [96, 10] then
    throw ("Malformed archive member header in '" ++ path ++ "'")
  else do
    let memberSize ← Checked.of (importLibraryParseArchiveMemberSize memberHeader)
    let memberDataOffset := offset + IMPORT_ARCHIVE_MEMBER_HEADER_SIZE
    if memberSize > file.length - memberDataOffset then
      throw ("Import library '" ++ path ++ "' has a truncated archive member")
    else do
      let memberName := importLibraryTrimMemberName (cString (slice memberHeader 0 16))
      let symbol ← importLibraryReadSymbol file memberName memberDataOffset memberSize
      pure (symbol, memberDataOffset + memberSize + memberSize % 2)

def importLibraryReadMembers (path : String) (file : List UInt8) :
    Nat → Nat → List ImportLibrarySymbol → Checked (List ImportLibrarySymbol)
  | 0, _, _ => ExceptT.mk none
  | rounds + 1, offset, symbols =>
    if offset + IMPORT_ARCHIVE_MEMBER_HEADER_SIZE ≤ file.length then do
      let (symbol, next) ← importLibraryReadMember path file offset
      importLibraryReadMembers path file rounds next (symbols ++ symbol.toList)
    else pure symbols

/-- `import_library_read`, on the bytes of the file. -/
def importLibraryRead (path : String) (file : List UInt8) : Checked (List ImportLibrarySymbol) :=
  if file.length < 8 then throw ("Import library '" ++ path ++ "' is not a COFF archive")
  else do
    let magic ← access file 0 8
    if magic ≠ cLit "!<arch>\n" then
      throw ("Import library '" ++ path ++ "' is not a COFF archive")
    else do
      let symbols ← importLibraryReadMembers path file file.length 8 []
      if symbols = [] then
        throw ("Import library '" ++ path ++ "' did not contain AMD64 import members")
      else pure symbols

-- ---
-- Any bytes
-- ---

def memberSymbol (memberName : CString) (data : List UInt8) :
    Except String (Option ImportLibrarySymbol) :=
  let header := importLibraryParseImportHeader (slice data 0 IMPORT_OBJECT_HEADER_SIZE)
  if importLibraryMemberNameIsSpecial memberName ∨ data.length < IMPORT_OBJECT_HEADER_SIZE then
    .ok none
  else if header.isImport then
    (importLibraryParseStrings data).map fun names =>
      some (importLibrarySymbol header names.1 names.2)
  else .ok none

variable {file : List UInt8}

theorem readSymbol_checked (memberName : CString) {off size : Nat}
    (hInside : off + size ≤ file.length) :
    importLibraryReadSymbol file memberName off size =
      Checked.of (memberSymbol memberName (slice file off size)) := by
  unfold importLibraryReadSymbol memberSymbol
  rw [length_slice_of_le hInside]
  by_cases hSkip : importLibraryMemberNameIsSpecial memberName = true ∨
      size < IMPORT_OBJECT_HEADER_SIZE
  · rw [if_pos hSkip, if_pos hSkip, Checked.pure_eq]
  · have hLong : IMPORT_OBJECT_HEADER_SIZE ≤ size := by
      omega
    have hHeader : slice (slice file off size) 0 IMPORT_OBJECT_HEADER_SIZE =
        slice file off IMPORT_OBJECT_HEADER_SIZE := by
      rw [slice_slice _ (by omega), Nat.add_zero]
    rw [if_neg hSkip, if_neg hSkip, hHeader, access_of_le (by omega)]
    change (if _ then _ else _) = _
    split
    · rw [access_of_le hInside]
      change (Checked.of (importLibraryParseStrings _) >>= fun names => Checked.of (.ok _)) = _
      cases importLibraryParseStrings (slice file off size) <;> rfl
    · rfl

def memberResult (path : String) (file : List UInt8) (offset : Nat) :
    Except String (Option ImportLibrarySymbol × Nat) := do
  let memberHeader := slice file offset IMPORT_ARCHIVE_MEMBER_HEADER_SIZE
  if slice memberHeader 58 2 ≠ [96, 10] then
    .error ("Malformed archive member header in '" ++ path ++ "'")
  else do
    let memberSize ← importLibraryParseArchiveMemberSize memberHeader
    let memberDataOffset := offset + IMPORT_ARCHIVE_MEMBER_HEADER_SIZE
    if memberSize > file.length - memberDataOffset then
      .error ("Import library '" ++ path ++ "' has a truncated archive member")
    else do
      let memberName := importLibraryTrimMemberName (cString (slice memberHeader 0 16))
      let symbol ← memberSymbol memberName (slice file memberDataOffset memberSize)
      pure (symbol, memberDataOffset + memberSize + memberSize % 2)

variable (path : String)

theorem readMember_checked {offset : Nat}
    (hInside : offset + IMPORT_ARCHIVE_MEMBER_HEADER_SIZE ≤ file.length) :
    importLibraryReadMember path file offset = Checked.of (memberResult path file offset) := by
  unfold importLibraryReadMember memberResult
  rw [access_of_le hInside]
  change (if _ then _ else _) = _
  by_cases hEnd : slice (slice file offset IMPORT_ARCHIVE_MEMBER_HEADER_SIZE) 58 2 ≠ [96, 10]
  · rw [if_pos hEnd, if_pos hEnd]
    rfl
  · rw [if_neg hEnd, if_neg hEnd]
    cases importLibraryParseArchiveMemberSize
        (slice file offset IMPORT_ARCHIVE_MEMBER_HEADER_SIZE) with
    | error message => rfl
    | ok size =>
      change (if _ then _ else _) = Checked.of (if _ then _ else _)
      split
      · rfl
      · rename_i hSize
        rw [readSymbol_checked _ (by omega)]
        cases memberSymbol _ _ <;> rfl

theorem memberResult_advances {path : String} {offset next : Nat}
    {symbol : Option ImportLibrarySymbol} (h : memberResult path file offset = .ok (symbol, next)) :
    offset + IMPORT_ARCHIVE_MEMBER_HEADER_SIZE ≤ next := by
  unfold memberResult at h
  dsimp only at h
  split at h
  · cases h
  · cases hSize : importLibraryParseArchiveMemberSize
        (slice file offset IMPORT_ARCHIVE_MEMBER_HEADER_SIZE) with
    | error message =>
      rw [hSize] at h
      cases h
    | ok size =>
      rw [hSize] at h
      change (if _ then _ else _) = _ at h
      split at h
      · cases h
      · cases hSymbol : memberSymbol (importLibraryTrimMemberName (cString
            (slice (slice file offset IMPORT_ARCHIVE_MEMBER_HEADER_SIZE) 0 16)))
            (slice file (offset + IMPORT_ARCHIVE_MEMBER_HEADER_SIZE) size) with
        | error message =>
          rw [hSymbol] at h
          cases h
        | ok own =>
          rw [hSymbol] at h
          cases h
          omega

theorem readMembers_checked (file : List UInt8) (rounds offset : Nat) (hRounds : 0 < rounds)
    (hEnough : file.length ≤ offset + rounds) (symbols : List ImportLibrarySymbol) :
    ∃ result, importLibraryReadMembers path file rounds offset symbols = Checked.of result := by
  induction rounds generalizing offset symbols with
  | zero => omega
  | succ rounds ih =>
    rw [importLibraryReadMembers]
    by_cases hInside : offset + IMPORT_ARCHIVE_MEMBER_HEADER_SIZE ≤ file.length
    · rw [if_pos hInside, readMember_checked path hInside]
      cases hMember : memberResult path file offset with
      | error message => exact ⟨.error message, rfl⟩
      | ok own =>
        have hNext := memberResult_advances hMember
        unfold IMPORT_ARCHIVE_MEMBER_HEADER_SIZE at hInside hNext
        exact ih _ (by omega) (by omega) _
    · rw [if_neg hInside]
      exact ⟨.ok symbols, rfl⟩

/-- **Any bytes.** -/
theorem importLibraryRead_checked (file : List UInt8) :
    ∃ result, importLibraryRead path file = Checked.of result := by
  unfold importLibraryRead
  by_cases hShort : file.length < 8
  · rw [if_pos hShort]
    exact ⟨_, rfl⟩
  · rw [if_neg hShort, access_of_le (by omega)]
    rw [Checked.of_ok_bind]
    split
    · exact ⟨_, rfl⟩
    · obtain ⟨result, hResult⟩ := readMembers_checked path file file.length 8
        (by omega) (by omega) []
      rw [hResult]
      cases result with
      | error message => exact ⟨.error message, rfl⟩
      | ok symbols =>
        rw [Checked.of_ok_bind]
        split
        · exact ⟨_, rfl⟩
        · exact ⟨_, rfl⟩

-- ---
-- Archives
-- ---

/-- A short import; `rest` is the export name that some of them have. -/
structure ShortImport where
  machine : Nat
  timeDateStamp : Nat
  ordinalOrHint : Nat
  typeInfo : Nat
  symbolName : CString
  dllName : CString
  rest : List UInt8
  deriving DecidableEq

def ShortImport.header (i : ShortImport) : List UInt8 :=
  leBytes 2 0 ++ leBytes 2 0xFFFF ++ leBytes 2 0 ++ leBytes 2 i.machine ++
    leBytes 4 i.timeDateStamp ++
    leBytes 4 (i.symbolName.length + 1 + (i.dllName.length + 1) + i.rest.length) ++
    leBytes 2 i.ordinalOrHint ++ leBytes 2 i.typeInfo

def ShortImport.bytes (i : ShortImport) : List UInt8 :=
  i.header ++ (i.symbolName ++ 0 :: (i.dllName ++ 0 :: i.rest))

structure ShortImport.Fits (i : ShortImport) : Prop where
  machine : i.machine < 2 ^ 16
  ordinalOrHint : i.ordinalOrHint < 2 ^ 16
  typeInfo : i.typeInfo < 2 ^ 16
  symbolName : (0 : UInt8) ∉ i.symbolName
  dllName : (0 : UInt8) ∉ i.dllName

def ShortImport.symbol (i : ShortImport) : ImportLibrarySymbol where
  symbolName := i.symbolName
  dllName := i.dllName
  machine := i.machine
  ordinalOrHint := i.ordinalOrHint
  importType := i.typeInfo % 4
  nameType := i.typeInfo / 4 % 8
  isOrdinal := i.typeInfo / 4 % 8 == IMPORT_OBJECT_NAME_TYPE_ORDINAL

inductive MemberContent
  | linker
  | object
  | shortImport (i : ShortImport)
  deriving DecidableEq

structure ArchiveMember where
  name : List UInt8
  attributes : List UInt8
  sizeDigits : List UInt8
  data : List UInt8
  content : MemberContent
  deriving DecidableEq

def nameField (name : CString) : List UInt8 := name ++ List.replicate (16 - name.length) 32

def linkerNames : List (List UInt8) :=
  [nameField (cLit "/"), nameField (cLit "//"), nameField (cLit "/<XFGHASHMAP>/")]

/-- The header of a short import, which has version 0; an object with an extended header starts
like it, with another version. -/
def IsShortImport (data : List UInt8) : Prop :=
  IMPORT_OBJECT_HEADER_SIZE ≤ data.length ∧ linkerReadU16 data 0 = 0 ∧
    linkerReadU16 data 2 = 0xFFFF ∧ linkerReadU16 data 4 = 0

structure ArchiveMember.WellFormed (m : ArchiveMember) : Prop where
  name : m.name.length = 16
  attributes : m.attributes.length = 32
  size_length : m.sizeDigits.length ≤ 10
  size_nonempty : m.sizeDigits ≠ []
  size_digits : ∀ b ∈ m.sizeDigits, isDigit b = true
  size : decimalValue m.sizeDigits = m.data.length
  linker : m.content = .linker ↔ m.name ∈ linkerNames
  object : m.content = .object → ¬IsShortImport m.data
  shortImport : ∀ i, m.content = .shortImport i → i.Fits ∧ m.data = i.bytes

def ArchiveMember.header (m : ArchiveMember) : List UInt8 :=
  m.name ++ m.attributes ++ (m.sizeDigits ++ List.replicate (10 - m.sizeDigits.length) 32) ++
    [96, 10]

def ArchiveMember.bytes (m : ArchiveMember) : List UInt8 :=
  m.header ++ (m.data ++ List.replicate (m.data.length % 2) 10)

def archiveBytes (members : List ArchiveMember) : List UInt8 :=
  cLit "!<arch>\n" ++ members.flatMap ArchiveMember.bytes

def importSymbols (members : List ArchiveMember) : List ImportLibrarySymbol :=
  members.filterMap fun m =>
    match m.content with
    | .shortImport i => some i.symbol
    | _ => none

-- ---
-- One member
-- ---

variable {members : List ArchiveMember} {m : ArchiveMember}

section Member

variable {m : ArchiveMember}

theorem isSpecial_trimmed (name : CString) :
    importLibraryMemberNameIsSpecial (importLibraryTrimMemberName name) = false := by
  -- what is trimmed does not end in a slash, and the special names do
  have hLast : ∀ rest : CString, importLibraryTrimMemberName name ≠ rest ++ [47] := by
    intro rest hEq
    have hReverse := congrArg reverse hEq
    rw [importLibraryTrimMemberName, reverse_reverse, reverse_append, reverse_singleton] at hReverse
    have hHead := head?_dropWhile_not (fun b : UInt8 => b == 32 || b == 47) name.reverse
    rw [hReverse] at hHead
    cases hHead
  unfold importLibraryMemberNameIsSpecial
  simp only [Bool.or_eq_false_iff, beq_eq_false_iff_ne]
  exact ⟨⟨hLast [], hLast [47]⟩, hLast (cLit "/<XFGHASHMAP>")⟩

theorem ArchiveMember.WellFormed.size_field (h : m.WellFormed) :
    (m.sizeDigits ++ List.replicate (10 - m.sizeDigits.length) (32 : UInt8)).length = 10 := by
  have := h.size_length
  rw [length_append, length_replicate]
  omega

theorem ArchiveMember.WellFormed.length_header (h : m.WellFormed) :
    m.header.length = IMPORT_ARCHIVE_MEMBER_HEADER_SIZE := by
  rw [ArchiveMember.header, length_append, length_append, length_append, h.name,
    h.attributes, h.size_field]
  rfl

theorem not_zero_of_isDigit {b : UInt8} (h : isDigit b = true) : b ≠ 0 := by
  rintro rfl
  cases h

theorem not_space_of_isDigit {b : UInt8} (h : isDigit b = true) : isSpace b = false := by
  unfold isDigit at h
  unfold isSpace
  simp only [Bool.and_eq_true, decide_eq_true_eq, UInt8.le_iff_toNat_le] at h
  simp only [Bool.or_eq_false_iff, Bool.and_eq_false_iff, beq_eq_false_iff_ne,
    decide_eq_false_iff_not, UInt8.le_iff_toNat_le]
  refine ⟨?_, Or.inr ?_⟩
  · rintro rfl
    exact absurd h.1 (by decide)
  · have hLow : (48 : UInt8).toNat = 48 := rfl
    have hHigh : (13 : UInt8).toNat = 13 := rfl
    omega

theorem ArchiveMember.WellFormed.parse_size (h : m.WellFormed) :
    importLibraryParseArchiveMemberSize m.header = .ok m.data.length := by
  have hField : slice m.header 48 10 = m.sizeDigits ++ replicate (10 - m.sizeDigits.length) 32 := by
    refine slice_append_at _ _ _ ?_ h.size_field.symm
    rw [length_append, h.name, h.attributes]
  obtain ⟨d, ds, hDigits⟩ := exists_cons_of_ne_nil h.size_nonempty
  have hFirst : isDigit d = true := h.size_digits d (by rw [hDigits]; exact mem_cons_self)
  have hSpaces : ∀ b ∈ replicate (10 - m.sizeDigits.length) (32 : UInt8), b = 32 := by
    intro b hb
    exact (mem_replicate.mp hb).2
  have hString : cString (m.sizeDigits ++ replicate (10 - m.sizeDigits.length) 32) =
      m.sizeDigits ++ replicate (10 - m.sizeDigits.length) 32 := by
    unfold cString
    rw [takeWhile_eq_self_iff]
    intro b hb
    rcases mem_append.mp hb with hDigit | hSpace
    · exact decide_eq_true (not_zero_of_isDigit (h.size_digits b hDigit))
    · rw [hSpaces b hSpace]
      rfl
  have hBody : (m.sizeDigits ++ replicate (10 - m.sizeDigits.length) (32 : UInt8)).dropWhile
      isSpace = m.sizeDigits ++ replicate (10 - m.sizeDigits.length) 32 := by
    rw [hDigits, cons_append, dropWhile_cons_of_neg]
    rw [not_space_of_isDigit hFirst]
    exact Bool.false_ne_true
  have hHead : (m.sizeDigits ++ replicate (10 - m.sizeDigits.length) (32 : UInt8)).head? =
      some d := by
    rw [hDigits]
    rfl
  have hNoSign : (some d == some (45 : UInt8)) = false ∧ (some d == some (43 : UInt8)) = false := by
    constructor
    · rw [beq_eq_false_iff_ne]
      intro hEq
      cases hEq
      cases hFirst
    · rw [beq_eq_false_iff_ne]
      intro hEq
      cases hEq
      cases hFirst
  have hTake : (m.sizeDigits ++ replicate (10 - m.sizeDigits.length) (32 : UInt8)).takeWhile
      isDigit = m.sizeDigits := by
    rw [takeWhile_append_of_pos h.size_digits]
    cases 10 - m.sizeDigits.length with
    | zero => exact append_nil _
    | succ n => exact append_nil _
  have hDrop : (m.sizeDigits ++ replicate (10 - m.sizeDigits.length) (32 : UInt8)).dropWhile
      isDigit = replicate (10 - m.sizeDigits.length) 32 := by
    rw [dropWhile_append_of_pos h.size_digits]
    cases 10 - m.sizeDigits.length with
    | zero => rfl
    | succ n => rfl
  unfold importLibraryParseArchiveMemberSize strtoull
  rw [hField, hString]
  dsimp only
  rw [hBody, hHead, hNoSign.1, hNoSign.2]
  simp only [Bool.or_self, Bool.false_eq_true, if_false]
  rw [hTake, hDrop, if_neg h.size_nonempty, h.size]
  rw [if_pos]
  rw [dropWhile_eq_nil_iff]
  intro b hb
  rw [hSpaces b hb]
  rfl

def ArchiveMember.read (m : ArchiveMember) : Except String (Option ImportLibrarySymbol) :=
  memberSymbol (importLibraryTrimMemberName (cString m.name)) m.data

theorem ArchiveMember.WellFormed.length_bytes (h : m.WellFormed) :
    m.bytes.length = IMPORT_ARCHIVE_MEMBER_HEADER_SIZE + m.data.length + m.data.length % 2 := by
  rw [ArchiveMember.bytes, length_append, h.length_header, length_append,
    length_replicate, Nat.add_assoc]

theorem ArchiveMember.WellFormed.memberResult_eq (h : m.WellFormed) (path : String)
    (front back : List UInt8) :
    memberResult path (front ++ (m.bytes ++ back)) front.length =
      m.read.map fun symbol => (symbol, front.length + m.bytes.length) := by
  have hHeader : slice (front ++ (m.bytes ++ back)) front.length
      IMPORT_ARCHIVE_MEMBER_HEADER_SIZE = m.header := by
    have hShape : front ++ (m.bytes ++ back) = front ++ m.header ++
        (m.data ++ replicate (m.data.length % 2) 10 ++ back) := by
      simp [ArchiveMember.bytes]
    rw [hShape]
    exact slice_append_at front m.header _ rfl h.length_header.symm
  have hData : slice (front ++ (m.bytes ++ back))
      (front.length + IMPORT_ARCHIVE_MEMBER_HEADER_SIZE) m.data.length = m.data := by
    have hShape : front ++ (m.bytes ++ back) = (front ++ m.header) ++ m.data ++
        (replicate (m.data.length % 2) 10 ++ back) := by
      simp [ArchiveMember.bytes]
    rw [hShape]
    refine slice_append_at _ _ _ ?_ rfl
    rw [length_append, h.length_header]
  have hEnd : slice m.header 58 2 = [96, 10] := by
    have hShape : m.header = (m.name ++ m.attributes ++ (m.sizeDigits ++
        replicate (10 - m.sizeDigits.length) 32)) ++ [96, 10] ++ [] := by
      rw [append_nil]
      rfl
    rw [hShape]
    refine slice_append_at _ _ _ ?_ rfl
    rw [length_append, length_append, h.name, h.attributes, h.size_field]
  have hName : slice m.header 0 16 = m.name := by
    rw [ArchiveMember.header, append_assoc, append_assoc]
    exact slice_append_first h.name.symm
  have hFits : ¬m.data.length > (front ++ (m.bytes ++ back)).length -
      (front.length + IMPORT_ARCHIVE_MEMBER_HEADER_SIZE) := by
    rw [length_append, length_append, h.length_bytes]
    omega
  unfold memberResult ArchiveMember.read
  dsimp only
  rw [hHeader, hEnd, if_neg (fun hNe => hNe rfl), h.parse_size]
  change (if _ then _ else _) = _
  rw [if_neg hFits, hName, hData, h.length_bytes]
  cases memberSymbol (importLibraryTrimMemberName (cString m.name)) m.data with
  | error message => rfl
  | ok symbol =>
    change Except.ok (symbol, _) = Except.ok (symbol, _)
    congr 2
    omega

/-- **The members of an archive**, one after the other. -/
theorem readMembers_archive (front : List UInt8) (hWell : ∀ m ∈ members, m.WellFormed)
    (rounds : Nat) (hRounds : members.length < rounds) (symbols : List ImportLibrarySymbol) :
    importLibraryReadMembers path (front ++ members.flatMap ArchiveMember.bytes) rounds
        front.length symbols =
      Checked.of ((members.mapM ArchiveMember.read).map fun found =>
        symbols ++ found.filterMap id) := by
  induction members generalizing front rounds symbols with
  | nil =>
    obtain ⟨rounds, rfl⟩ : ∃ r, rounds = r + 1 := ⟨rounds - 1, by omega⟩
    rw [importLibraryReadMembers, flatMap_nil, append_nil, if_neg (by
      unfold IMPORT_ARCHIVE_MEMBER_HEADER_SIZE; omega)]
    change Checked.of (.ok symbols) = Checked.of (.ok (symbols ++ []))
    rw [append_nil]
  | cons m rest ih =>
    obtain ⟨rounds, rfl⟩ : ∃ r, rounds = r + 1 := ⟨rounds - 1, by omega⟩
    have hm := hWell m mem_cons_self
    have hInside : front.length + IMPORT_ARCHIVE_MEMBER_HEADER_SIZE ≤
        (front ++ (m :: rest).flatMap ArchiveMember.bytes).length := by
      rw [flatMap_cons, length_append, length_append, hm.length_bytes]
      omega
    rw [importLibraryReadMembers, if_pos hInside, readMember_checked path hInside,
      flatMap_cons, hm.memberResult_eq path front, mapM_cons]
    cases m.read with
    | error message => rfl
    | ok symbol =>
      have hNext := ih (front ++ m.bytes) (fun x hx => hWell x (mem_cons_of_mem _ hx))
        rounds (Nat.lt_of_succ_lt_succ hRounds) (symbols ++ symbol.toList)
      rw [length_append, append_assoc] at hNext
      change importLibraryReadMembers path _ rounds (front.length + m.bytes.length)
        (symbols ++ symbol.toList) = _
      rw [hNext]
      cases rest.mapM ArchiveMember.read with
      | error message => rfl
      | ok found =>
        change Checked.of (.ok _) = Checked.of (.ok _)
        cases symbol with
        | none => simp
        | some own => simp

-- ---
-- What is taken for an import
-- ---

def looksLikeImport (data : List UInt8) : Bool :=
  decide (IMPORT_OBJECT_HEADER_SIZE ≤ data.length) &&
    (importLibraryParseImportHeader (slice data 0 IMPORT_OBJECT_HEADER_SIZE)).isImport

theorem ArchiveMember.read_eq (m : ArchiveMember) : m.read = if looksLikeImport m.data then
        (importLibraryParseStrings m.data).map fun names =>
          some (importLibrarySymbol (importLibraryParseImportHeader
            (slice m.data 0 IMPORT_OBJECT_HEADER_SIZE)) names.1 names.2)
      else .ok none := by
  unfold ArchiveMember.read memberSymbol looksLikeImport
  rw [isSpecial_trimmed]
  by_cases hShort : m.data.length < IMPORT_OBJECT_HEADER_SIZE
  · rw [if_pos (Or.inr hShort), decide_eq_false (by omega), Bool.false_and, if_neg Bool.false_ne_true]
  · rw [if_neg (by rintro (h | h) <;> [cases h; exact hShort h]), decide_eq_true (by omega),
      Bool.true_and]

theorem ArchiveMember.read_machine {symbol : ImportLibrarySymbol} (h : m.read = .ok (some symbol))
    : symbol.machine = COFF_MACHINE_AMD64 := by
  rw [m.read_eq] at h
  split at h
  · rename_i hLooks
    cases hStrings : importLibraryParseStrings m.data with
    | error message =>
      rw [hStrings] at h
      cases h
    | ok names =>
      rw [hStrings] at h
      cases h
      simp only [looksLikeImport, ImportObjectHeader.isImport, Bool.and_eq_true, beq_iff_eq] at hLooks
      exact hLooks.2.2
  · cases h

section Import

variable {i : ShortImport}

theorem ShortImport.length_header (i : ShortImport) :
    i.header.length = IMPORT_OBJECT_HEADER_SIZE := by
  rfl

theorem ShortImport.slice_header (i : ShortImport) :
    slice i.bytes 0 IMPORT_OBJECT_HEADER_SIZE = i.header :=
  slice_append_first i.length_header.symm

theorem ShortImport.Fits.parse_header (h : i.Fits) : importLibraryParseImportHeader i.header =
      { sig1 := 0, sig2 := 0xFFFF, machine := i.machine, ordinalOrHint := i.ordinalOrHint
        typeInfo := i.typeInfo } := by
  unfold importLibraryParseImportHeader linkerReadU16
  have hMachine : slice i.header 6 2 = leBytes 2 i.machine := rfl
  have hOrdinal : slice i.header 16 2 = leBytes 2 i.ordinalOrHint := rfl
  have hType : slice i.header 18 2 = leBytes 2 i.typeInfo := rfl
  have hSig1 : slice i.header 0 2 = leBytes 2 0 := rfl
  have hSig2 : slice i.header 2 2 = leBytes 2 0xFFFF := rfl
  have hWord : ∀ n, n < 2 ^ 16 → leNat (leBytes 2 n) = n := by
    intro n hn
    exact leNat_leBytes_of_lt (by omega)
  rw [hMachine, hOrdinal, hType, hSig1, hSig2, hWord _ h.machine, hWord _ h.ordinalOrHint,
    hWord _ h.typeInfo]
  rfl

theorem cString_append {name rest : List UInt8} (h : (0 : UInt8) ∉ name) :
    cString (name ++ 0 :: rest) = name := by
  unfold cString
  rw [takeWhile_append_of_pos]
  · rw [takeWhile_cons_of_neg (by decide), append_nil]
  · intro b hb
    rw [decide_eq_true_eq]
    rintro rfl
    exact h hb

theorem ShortImport.Fits.parse_strings (h : i.Fits) :
    importLibraryParseStrings i.bytes = .ok (i.symbolName, i.dllName) := by
  have hDrop : i.bytes.drop IMPORT_OBJECT_HEADER_SIZE =
      i.symbolName ++ 0 :: (i.dllName ++ 0 :: i.rest) := by
    rw [ShortImport.bytes, ← i.length_header, drop_left]
  have hRest : (i.symbolName ++ 0 :: (i.dllName ++ 0 :: i.rest)).drop (i.symbolName.length + 1) =
      i.dllName ++ 0 :: i.rest := by
    rw [drop_append, drop_of_length_le (by omega), nil_append,
      Nat.add_sub_cancel_left, drop_succ_cons, drop_zero]
  unfold importLibraryParseStrings
  dsimp only
  rw [hDrop, cString_append h.symbolName, hRest, cString_append h.dllName,
    if_neg (by rw [length_append, length_cons]; omega),
    if_neg (by rw [length_append, length_cons]; omega)]

theorem ShortImport.Fits.looksLikeImport_eq (h : i.Fits) :
    looksLikeImport i.bytes = (i.machine == COFF_MACHINE_AMD64) := by
  have hLong : IMPORT_OBJECT_HEADER_SIZE ≤ i.bytes.length := by
    rw [ShortImport.bytes, length_append, i.length_header]
    omega
  unfold looksLikeImport
  rw [decide_eq_true hLong, i.slice_header, h.parse_header]
  rfl

theorem ArchiveMember.WellFormed.read_shortImport (h : m.WellFormed)
    (hContent : m.content = .shortImport i) :
    m.read = .ok (if i.machine = COFF_MACHINE_AMD64 then some i.symbol else none) := by
  obtain ⟨hFits, hData⟩ := h.shortImport i hContent
  rw [m.read_eq, hData, hFits.looksLikeImport_eq, i.slice_header, hFits.parse_header,
    hFits.parse_strings]
  by_cases hMachine : i.machine = COFF_MACHINE_AMD64
  · rw [if_pos (beq_iff_eq.mpr hMachine), if_pos hMachine]
    rfl
  · rw [if_neg (fun hEq => hMachine (beq_iff_eq.mp hEq)), if_neg hMachine]

end Import

def ArchiveMember.misread (m : ArchiveMember) : Bool :=
  match m.content with
  | .shortImport _ => false
  | _ => looksLikeImport m.data

/-- When the reader takes the imports and nothing else. -/
structure ReadExactly (members : List ArchiveMember) : Prop where
  machine : ∀ m ∈ members, ∀ i, m.content = .shortImport i → i.machine = COFF_MACHINE_AMD64
  others : ∀ m ∈ members, m.misread = false
  some_import : importSymbols members ≠ []

theorem importSymbols_cons (m : ArchiveMember) (rest : List ArchiveMember) :
    importSymbols (m :: rest) = (match m.content with
      | .shortImport i => some i.symbol
      | _ => none).toList ++ importSymbols rest := by
  unfold importSymbols
  rw [filterMap_cons]
  cases m.content <;> rfl

theorem ArchiveMember.WellFormed.read_of_exact (h : m.WellFormed)
    (hMachine : ∀ i, m.content = .shortImport i → i.machine = COFF_MACHINE_AMD64)
    (hOther : m.misread = false) :
    m.read = .ok (match m.content with
      | .shortImport i => some i.symbol
      | _ => none) := by
  cases hContent : m.content with
  | shortImport i =>
    rw [h.read_shortImport hContent, if_pos (hMachine i hContent)]
  | _ =>
    rw [ArchiveMember.misread, hContent] at hOther
    have hPlain : looksLikeImport m.data = false := hOther
    rw [m.read_eq, if_neg (by rw [hPlain]; exact Bool.false_ne_true)]

section

variable (hWell : ∀ m ∈ members, m.WellFormed)
include hWell

theorem mapM_read_of_exact
    (hMachine : ∀ m ∈ members, ∀ i, m.content = .shortImport i → i.machine = COFF_MACHINE_AMD64)
    (hOthers : ∀ m ∈ members, m.misread = false) :
    (members.mapM ArchiveMember.read).map (fun found => found.filterMap id) =
      .ok (importSymbols members) := by
  induction members with
  | nil => rfl
  | cons m rest ih =>
    have hHere := (hWell m mem_cons_self).read_of_exact (hMachine m mem_cons_self)
      (hOthers m mem_cons_self)
    have hRest := ih (fun x hx => hWell x (mem_cons_of_mem _ hx))
      (fun x hx => hMachine x (mem_cons_of_mem _ hx))
      (fun x hx => hOthers x (mem_cons_of_mem _ hx))
    rw [mapM_cons, hHere, importSymbols_cons]
    cases hFound : rest.mapM ArchiveMember.read with
    | error message =>
      rw [hFound] at hRest
      cases hRest
    | ok found =>
      rw [hFound] at hRest
      have hSame : found.filterMap id = importSymbols rest := Except.ok.inj hRest
      change Except.ok (filterMap id (_ :: found)) = _
      rw [← hSame]
      cases m.content <;> rfl

theorem mapM_read_found {found : List (Option ImportLibrarySymbol)}
    (hFound : members.mapM ArchiveMember.read = .ok found) :
    (∀ symbol ∈ found.filterMap id, symbol.machine = COFF_MACHINE_AMD64) ∧
      ((∀ m ∈ members, ∀ i, m.content = .shortImport i → i.machine = COFF_MACHINE_AMD64) →
        (found.filterMap id).length =
          (importSymbols members).length + members.countP ArchiveMember.misread) := by
  induction members generalizing found with
  | nil =>
    cases hFound
    exact ⟨nofun, fun _ => rfl⟩
  | cons m rest ih =>
    rw [mapM_cons] at hFound
    cases hRead : m.read with
    | error message =>
      rw [hRead] at hFound
      cases hFound
    | ok own =>
      rw [hRead] at hFound
      cases hRest : rest.mapM ArchiveMember.read with
      | error message =>
        rw [hRest] at hFound
        cases hFound
      | ok later =>
        rw [hRest] at hFound
        cases hFound
        obtain ⟨hMachines, hLength⟩ := ih (fun x hx => hWell x (mem_cons_of_mem _ hx)) hRest
        refine ⟨?_, ?_⟩
        · intro symbol hMem
          cases own with
          | none => exact hMachines symbol hMem
          | some first =>
            rcases mem_cons.mp hMem with rfl | hLater
            · exact ArchiveMember.read_machine hRead
            · exact hMachines symbol hLater
        · intro hMachine
          have hTail := hLength fun x hx => hMachine x (mem_cons_of_mem _ hx)
          have hCount : (own.toList).length = (match m.content with
              | .shortImport i => some i.symbol
              | _ => none).toList.length + (if m.misread then 1 else 0) := by
            cases hContent : m.content with
            | shortImport i =>
              rw [(hWell m mem_cons_self).read_shortImport hContent,
                if_pos (hMachine m mem_cons_self i hContent)] at hRead
              cases hRead
              rw [ArchiveMember.misread, hContent]
              rfl
            | _ =>
              rw [m.read_eq] at hRead
              rw [ArchiveMember.misread, hContent]
              split at hRead
              · rename_i hLooks
                rw [if_pos hLooks]
                cases hStrings : importLibraryParseStrings m.data with
                | error message =>
                  rw [hStrings] at hRead
                  cases hRead
                | ok names =>
                  rw [hStrings] at hRead
                  cases hRead
                  rfl
              · rename_i hLooks
                rw [if_neg hLooks]
                cases hRead
                rfl
          have hSplit : ((own :: later).filterMap id).length =
              own.toList.length + (later.filterMap id).length := by
            cases own with
            | none => exact (Nat.zero_add _).symm
            | some first => exact Nat.add_comm _ _
          rw [hSplit, hCount, hTail, importSymbols_cons, length_append, countP_cons]
          omega

theorem importLibraryRead_archive : importLibraryRead path (archiveBytes members) =
      Checked.of (((members.mapM ArchiveMember.read).map fun found => found.filterMap id) >>=
        fun symbols => if symbols = [] then
          .error ("Import library '" ++ path ++ "' did not contain AMD64 import members")
        else .ok symbols) := by
  have hLength : (archiveBytes members).length =
      8 + (members.flatMap ArchiveMember.bytes).length := length_append
  have hMany : members.length ≤ (members.flatMap ArchiveMember.bytes).length := by
    clear hLength
    induction members with
    | nil => exact Nat.le_refl _
    | cons m rest ih =>
      have hRest := ih fun x hx => hWell x (mem_cons_of_mem _ hx)
      rw [flatMap_cons, length_append, length_cons, (hWell m mem_cons_self).length_bytes]
      unfold IMPORT_ARCHIVE_MEMBER_HEADER_SIZE
      omega
  have hLoop := readMembers_archive path (cLit "!<arch>\n") hWell
    (archiveBytes members).length (by omega) []
  change (importLibraryReadMembers path (archiveBytes members) _ 8 [] >>= _) = _
  change importLibraryReadMembers path (archiveBytes members) _ 8 [] = _ at hLoop
  rw [hLoop]
  cases members.mapM ArchiveMember.read with
  | error message => rfl
  | ok found =>
    by_cases hNone : found.filterMap id = []
    · change (if found.filterMap id = [] then _ else _) =
        Checked.of (if found.filterMap id = [] then _ else _)
      rw [if_pos hNone, if_pos hNone]
      rfl
    · change (if found.filterMap id = [] then _ else _) =
        Checked.of (if found.filterMap id = [] then _ else _)
      rw [if_neg hNone, if_neg hNone]
      rfl

end

/-- **When the archive is read exactly.** On any bytes the reader ends and stays in the file; of
a well-formed archive it returns one symbol for each short import exactly if there is one,
all of them are for AMD64, and no other member starts like one. -/
theorem importLibraryRead_exact_iff (path : String) :
    (∀ file, ∃ result, importLibraryRead path file = Checked.of result) ∧
    ∀ members : List ArchiveMember, (∀ m ∈ members, m.WellFormed) →
      (importLibraryRead path (archiveBytes members) = Checked.of (.ok (importSymbols members)) ↔
        ReadExactly members) := by
  refine ⟨importLibraryRead_checked path, ?_⟩
  intro members hWell
  rw [importLibraryRead_archive path hWell]
  constructor
  · intro hRead
    cases hFound : members.mapM ArchiveMember.read with
    | error message =>
      rw [hFound] at hRead
      cases hRead
    | ok found =>
      rw [hFound] at hRead
      have hEq : (if found.filterMap id = [] then
          Except.error ("Import library '" ++ path ++ "' did not contain AMD64 import members")
        else Except.ok (found.filterMap id)) = Except.ok (importSymbols members) :=
        Option.some.inj hRead
      obtain ⟨hMachines, hLength⟩ := mapM_read_found hWell hFound
      split at hEq
      · cases hEq
      · rename_i hSome
        have hSame : found.filterMap id = importSymbols members := Except.ok.inj hEq
        rw [hSame] at hMachines hSome
        have hMachine : ∀ m ∈ members, ∀ i, m.content = .shortImport i →
            i.machine = COFF_MACHINE_AMD64 := by
          intro m hm i hContent
          exact hMachines i.symbol (mem_filterMap.mpr ⟨m, hm, by rw [hContent]⟩)
        refine ⟨hMachine, ?_, hSome⟩
        have hNone : members.countP ArchiveMember.misread = 0 := by
          have := hLength hMachine
          rw [hSame] at this
          omega
        intro m hm
        exact Bool.not_eq_true _ ▸ countP_eq_zero.mp hNone m hm
  · intro hExact
    rw [mapM_read_of_exact hWell hExact.machine hExact.others]
    change Checked.of (if _ then _ else _) = _
    rw [if_neg hExact.some_import]

end Member

/-- `f` of `d.dll`, by name. -/
def importF : ShortImport where
  machine := COFF_MACHINE_AMD64
  timeDateStamp := 0
  ordinalOrHint := 1
  typeInfo := 4
  symbolName := cLit "f"
  dllName := cLit "d.dll"
  rest := []

def memberF : ArchiveMember where
  name := nameField (cLit "d.dll/")
  attributes := List.replicate 32 32
  sizeDigits := cLit "28"
  data := importF.bytes
  content := .shortImport importF

theorem memberF_wellFormed : memberF.WellFormed where
  name := by decide
  attributes := by decide
  size_length := by decide
  size_nonempty := by decide
  size_digits := by decide +kernel
  size := by decide
  linker := by decide
  object h := by cases h
  shortImport i h := by
    cases h
    exact ⟨⟨by decide, by decide, by decide, by decide, by decide⟩, rfl⟩

/-- The first linker member of an archive without public symbols. -/
def memberLinker : ArchiveMember where
  name := nameField (cLit "/")
  attributes := List.replicate 32 32
  sizeDigits := cLit "4"
  data := [0, 0, 0, 0]
  content := .linker

/-- An AMD64 object with no section. -/
def memberPlain : ArchiveMember where
  name := nameField (cLit "p.obj/")
  attributes := List.replicate 32 32
  sizeDigits := cLit "20"
  data := [0x64, 0x86] ++ List.replicate 18 0
  content := .object

theorem importLibraryRead_exact_iff_three :
    (∀ m ∈ [memberLinker, memberPlain, memberF], m.WellFormed) ∧
      importLibraryRead "d.lib" (archiveBytes [memberLinker, memberPlain, memberF]) =
        Checked.of (.ok [importF.symbol]) := by
  have hWell : ∀ m ∈ [memberLinker, memberPlain, memberF], m.WellFormed := by
    simp only [forall_mem_cons, not_mem_nil, false_imp_iff, implies_true, and_true]
    refine ⟨⟨by decide, by decide, by decide, by decide, by decide +kernel, by decide, by decide,
      nofun, nofun⟩, ⟨by decide, by decide, by decide, by decide, by decide +kernel, by decide,
      by decide, ?_, nofun⟩, memberF_wellFormed⟩
    rintro - ⟨-, -, hMark, -⟩
    revert hMark
    decide
  refine ⟨hWell, ((importLibraryRead_exact_iff "d.lib").2 _ hWell).mpr ⟨?_, ?_, ?_⟩⟩
  · intro m hm i hContent
    rcases mem_cons.mp hm with rfl | hm
    · cases hContent
    rcases mem_pair.mp hm with rfl | rfl
    · cases hContent
    · cases hContent
      rfl
  · simp only [forall_mem_cons, not_mem_nil, false_imp_iff, implies_true, and_true]
    exact ⟨rfl, rfl, rfl⟩
  · decide

def bigObject : List UInt8 :=
  [0, 0, 0xFF, 0xFF, 2, 0, 0x64, 0x86, 0, 0, 0, 0, 0xC7, 0xA1, 0xBA, 0xD1, 0xEE, 0xBA, 0xA9, 0x4B,
    0xAF, 0x20, 0xFA, 0xF6, 0x6A, 0xA4, 0xDC, 0xB8] ++ List.replicate 28 0

def memberObject : ArchiveMember where
  name := nameField (cLit "o.obj/")
  attributes := List.replicate 32 32
  sizeDigits := cLit "56"
  data := bigObject
  content := .object

theorem object_read_as_import : memberObject.WellFormed ∧ memberF.WellFormed ∧
      importSymbols [memberObject, memberF] = [importF.symbol] ∧
      importLibraryRead "d.lib" (archiveBytes [memberObject, memberF]) = Checked.of (.ok
        [{ symbolName := [0xAF, 0x20, 0xFA, 0xF6, 0x6A, 0xA4, 0xDC, 0xB8], dllName := []
           machine := COFF_MACHINE_AMD64, ordinalOrHint := 0xBAEE, importType := 1
           nameType := 2, isOrdinal := false }, importF.symbol]) := by
  have hObject : memberObject.WellFormed := by
    refine ⟨by decide, by decide, by decide, by decide, by decide +kernel, by decide, by decide, ?_,
      nofun⟩
    rintro - ⟨-, -, -, hVersion⟩
    revert hVersion
    decide
  refine ⟨hObject, memberF_wellFormed, by decide, ?_⟩
  rw [importLibraryRead_archive "d.lib" (by
    intro m hm
    rcases mem_pair.mp hm with rfl | rfl
    · exact hObject
    · exact memberF_wellFormed)]
  rfl

end Mettle.Linker
