import Mettle.Parser.TypeAnnotation

/-!
# Mettle — the grammar of type annotations

What a type annotation is, apart from how it is read: `TypeExpr`, its tokens
(`lexemes`) and its flattened text.

A suffix is a run of stars with at most one array size behind it. In a type that
can be written (`Written`) every node has one suffix. The source has no
parentheses for types, so the suffix of a function-pointer type and that of its
return type stand side by side; `spread` moves them all to the function type.
-/

namespace Mettle.Parser

open Lexing Lib List

-- ---
-- Words and sizes
-- ---

/-- An identifier or keyword, as the lexer cuts it out. -/
def IsWord (w : Text) : Prop :=
  (∃ c rest, w = c :: rest ∧ isWordStart c = true) ∧ ∀ c ∈ w, isWordChar c = true

def IsTypeName (w : Text) : Prop :=
  IsWord w ∧ (isTypeKeyword (wordType w) = true ∨ isIdentifierLike (wordType w) = true)

abbrev TypeName := { w : Text // IsTypeName w }

/-- The text of an array size: digits, or hexadecimal or binary ones behind their
mark. -/
def IsSize (s : Text) : Prop :=
  (s ≠ [] ∧ ∀ c ∈ s, isDigit c = true) ∨ ∃ mark digits, s = '0' :: mark :: digits ∧ digits ≠ [] ∧
      ((mark = 'x' ∨ mark = 'X') ∧ (∀ c ∈ digits, isHexDigit c = true) ∨
        (mark = 'b' ∨ mark = 'B') ∧ ∀ c ∈ digits, c = '0' ∨ c = '1')

abbrev ArraySize := { s : Text // IsSize s }

-- ---
-- Tokens of types
-- ---

inductive Mark where
  | dot | less | greater | comma | lparen | rparen | arrow | star | lbracket | rbracket
deriving DecidableEq

inductive Lexeme where
  | fn
  | name (n : TypeName)
  | size (s : ArraySize)
  | mark (m : Mark)
deriving DecidableEq

def Mark.type : Mark → TokenType
  | .dot => .dot
  | .less => .lessThan
  | .greater => .greaterThan
  | .comma => .comma
  | .lparen => .lparen
  | .rparen => .rparen
  | .arrow => .arrow
  | .star => .multiply
  | .lbracket => .lbracket
  | .rbracket => .rbracket

def Mark.text : Mark → Text
  | .dot => ['.']
  | .less => ['<']
  | .greater => ['>']
  | .comma => [',']
  | .lparen => ['(']
  | .rparen => [')']
  | .arrow => ['-', '>']
  | .star => ['*']
  | .lbracket => ['[']
  | .rbracket => [']']

def Lexeme.type : Lexeme → TokenType
  | .fn => .kwFn
  | .name n => wordType n.1
  | .size _ => .number
  | .mark m => m.type

def Lexeme.text : Lexeme → Text
  | .fn => "fn".toList
  | .name n => n.1
  | .size s => s.1
  | .mark m => m.text

def flatText (ls : List Lexeme) : Text := ls.flatMap Lexeme.text

@[simp] theorem flatText_nil : flatText [] = [] := rfl

@[simp] theorem flatText_cons (l : Lexeme) (ls : List Lexeme) :
    flatText (l :: ls) = l.text ++ flatText ls := rfl

@[simp] theorem flatText_append (ls ls' : List Lexeme) :
    flatText (ls ++ ls') = flatText ls ++ flatText ls' := flatMap_append

-- ---
-- Types
-- ---

inductive Item where
  | star
  | size (s : ArraySize)
deriving DecidableEq

/-- A type annotation: a qualified name with its type arguments, or a
function-pointer type, and what stands behind it. -/
inductive TypeExpr where
  | named (head : TypeName) (qualifiers : List TypeName) (args : List TypeExpr) (items : List Item)
  | function (params : List TypeExpr) (ret : TypeExpr) (items : List Item)

def Item.lexemes : Item → List Lexeme
  | .star => [.mark .star]
  | .size s => [.mark .lbracket, .size s, .mark .rbracket]

def itemLexemes (items : List Item) : List Lexeme := items.flatMap Item.lexemes

variable {items : List Item}

theorem itemLexemes_length_le {items' : List Item} (h : items <:+ items') :
    (itemLexemes items).length ≤ (itemLexemes items').length := by
  obtain ⟨front, rfl⟩ := h
  rw [itemLexemes, itemLexemes, flatMap_append, length_append]
  exact Nat.le_add_left _ _

theorem itemLexemes_append (own items : List Item) :
    itemLexemes (own ++ items) = itemLexemes own ++ itemLexemes items := flatMap_append

def qualifierLexemes (qualifiers : List TypeName) : List Lexeme :=
  qualifiers.flatMap fun name => [.mark .dot, .name name]

mutual

def TypeExpr.lexemes : TypeExpr → List Lexeme
  | .named head qualifiers [] items =>
    .name head :: (qualifierLexemes qualifiers ++ itemLexemes items)
  | .named head qualifiers (arg :: args) items =>
    .name head :: (qualifierLexemes qualifiers ++ .mark .less :: (arg.lexemes ++
      (moreLexemes args ++ .mark .greater :: itemLexemes items)))
  | .function params ret items =>
    .fn :: .mark .lparen :: (listLexemes params ++
      .mark .rparen :: .mark .arrow :: (ret.lexemes ++ itemLexemes items))

def listLexemes : List TypeExpr → List Lexeme
  | [] => []
  | type :: rest => type.lexemes ++ moreLexemes rest

def moreLexemes : List TypeExpr → List Lexeme
  | [] => []
  | type :: rest => .mark .comma :: (type.lexemes ++ moreLexemes rest)

end

def TypeExpr.text (type : TypeExpr) : Text := flatText type.lexemes

def suffixes : List Item → Nat
  | [] => 0
  | .star :: items => max 1 (suffixes items)
  | .size _ :: items => suffixes items + 1

mutual

def TypeExpr.Written : TypeExpr → Prop
  | .named _ _ args items => AllWritten args ∧ suffixes items ≤ 1
  | .function params ret items => AllWritten params ∧ ret.Written ∧ suffixes items ≤ 1

def AllWritten : List TypeExpr → Prop
  | [] => True
  | type :: rest => type.Written ∧ AllWritten rest

end

-- ---
-- Reading on
-- ---

/-- The tokens `ts` are those of `ls`, and then `us`. -/
inductive Shows : List Lexeme → List Token → List Token → Prop where
  | nil {us : List Token} : Shows [] us us
  | cons {l : Lexeme} {ls : List Lexeme} {t : Token} {ts us : List Token}
      (hType : t.type = l.type) (hValue : cString (t.value.getD []) = l.text)
      (hRest : Shows ls ts us) : Shows (l :: ls) (t :: ts) us

variable {ls : List Lexeme} {ts us : List Token}

variable {ls' : List Lexeme}

theorem shows_append : Shows (ls ++ ls') ts us ↔ ∃ vs, Shows ls ts vs ∧ Shows ls' vs us := by
  constructor
  · intro h
    induction ls generalizing ts with
    | nil => exact ⟨ts, .nil, h⟩
    | cons l ls ih =>
      cases h with
      | cons hType hValue hRest =>
        obtain ⟨vs, hVs, hUs⟩ := ih hRest
        exact ⟨vs, .cons hType hValue hVs, hUs⟩
  · rintro ⟨vs, hVs, hUs⟩
    induction hVs with
    | nil => exact hUs
    | cons hType hValue _ ih => exact .cons hType hValue (ih hUs)

theorem Shows.length (h : Shows ls ts us) : ts.length = ls.length + us.length := by
  induction h with
  | nil => simp
  | cons _ _ _ ih => simp [ih]; omega

/-- What may follow a type: nothing that goes on with it, and no lexical error. -/
def Stops (us : List Token) : Prop :=
  headType us ≠ .dot ∧ headType us ≠ .lessThan ∧ headType us ≠ .multiply ∧
    headType us ≠ .lbracket ∧ headType us ≠ .error

theorem lexeme_type_ne_error (l : Lexeme) : l.type ≠ .error := by
  cases l with
  | fn => exact nofun
  | name n =>
    intro hError
    have hName := n.2.2
    rw [show wordType n.1 = .error from hError] at hName
    rcases hName with h | h <;> cases h
  | size s => exact nofun
  | mark m => cases m <;> exact nofun

theorem Shows.no_error (h : Shows ls ts us) (hUs : headType us ≠ .error) :
    headType ts ≠ .error := by
  cases h with
  | nil => exact hUs
  | @cons l _ t _ _ hType =>
    show t.type ≠ .error
    rw [hType]
    exact lexeme_type_ne_error l

variable {l : Lexeme}

theorem Shows.take (h : Shows (l :: ls) ts us) (hUs : headType us ≠ .error) :
    ∃ vs, Reader.take ts = .value () vs ∧ Shows ls vs us ∧ ts.length = vs.length + 1 := by
  cases h with
  | @cons _ _ t ts _ hType hValue hRest =>
    exact ⟨ts, if_neg (hRest.no_error hUs), hRest, rfl⟩

theorem Shows.type (h : Shows (l :: ls) ts us) : headType ts = l.type := by
  cases h with
  | cons hType => exact hType

theorem Shows.expect {m : Mark} (h : Shows (.mark m :: ls) ts us) (hUs : headType us ≠ .error) :
    ∃ vs, Reader.expect m.type ts = .value () vs ∧ Shows ls vs us ∧ ts.length = vs.length + 1 := by
  obtain ⟨vs, hTake, hRest, hLength⟩ := h.take hUs
  have hType : headType ts = m.type := h.type
  refine ⟨vs, ?_, hRest, hLength⟩
  rw [Reader.expect, Reader.type_bind, if_pos hType, hTake]

theorem Shows.value (h : Shows (l :: ls) ts us) : headValue ts = l.text := by
  cases h with
  | cons _ hValue => exact hValue

-- ---
-- Suffixes
-- ---

def behindSuffix : List Item → List Item
  | [] => []
  | .star :: items => behindSuffix items
  | .size _ :: items => items

def leftover : TypeExpr → List Item → List Item
  | .named _ _ _ own, items => behindSuffix (own ++ items)
  | .function _ ret own, items => behindSuffix (leftover ret (own ++ items))

theorem suffixes_behindSuffix (items : List Item) :
    suffixes (behindSuffix items) ≤ suffixes items - 1 := by
  induction items with
  | nil => exact Nat.le_refl _
  | cons item items ih =>
    cases item with
    | star =>
      rw [behindSuffix, suffixes]
      omega
    | size s => exact Nat.le_refl _

theorem behindSuffix_suffix (items : List Item) : behindSuffix items <:+ items := by
  induction items with
  | nil => exact suffix_rfl
  | cons item items ih =>
    cases item with
    | star => exact ih.trans (suffix_cons _ _)
    | size s => exact suffix_cons _ _

theorem suffixes_append (own items : List Item) :
    suffixes (own ++ items) ≤ suffixes own + suffixes items := by
  induction own with
  | nil => simp
  | cons item own ih =>
    cases item <;> simp only [cons_append, suffixes] <;> omega

theorem suffixes_eq_zero (h : suffixes items = 0) : items = [] := by
  cases items with
  | nil => rfl
  | cons item items => cases item <;> simp only [suffixes] at h <;> omega

theorem suffixes_leftover {type : TypeExpr} (h : type.Written) (items : List Item) :
    suffixes (leftover type items) ≤ suffixes items := by
  match type, h with
  | .named _ _ _ own, h =>
    have hOwn := h.2
    have := suffixes_append own items
    have := suffixes_behindSuffix (own ++ items)
    rw [leftover]
    omega
  | .function _ ret own, h =>
    have hOwn := h.2.2
    have := suffixes_append own items
    have := suffixes_leftover h.2.1 (own ++ items)
    have := suffixes_behindSuffix (leftover ret (own ++ items))
    rw [leftover]
    omega

variable {type : TypeExpr}

theorem leftover_nil (h : type.Written) : leftover type [] = [] :=
  suffixes_eq_zero (Nat.le_zero.mp (suffixes_leftover h []))

-- ---
-- The reader takes the tokens of a type
-- ---

theorem stops_of_close
    (h : headType us = .rparen ∨ headType us = .greaterThan ∨ headType us = .comma ∨
      headType us = .rshift) : Stops us := by
  rcases h with h | h | h | h <;> rw [Stops, h] <;> decide

variable {fuel : Nat}

theorem suffixReader_items (name : Text) (hShows : Shows (itemLexemes items) ts us)
    (hStops : Stops us) (hFuel : ts.length < fuel) :
    ∃ v vs, (typeStarsReader fuel name >>= typeArraySizeReader) ts = .value v vs ∧
      Shows (itemLexemes (behindSuffix items)) vs us ∧
      v ++ flatText (itemLexemes (behindSuffix items)) = name ++ flatText (itemLexemes items) := by
  obtain ⟨fuel, rfl⟩ : ∃ n, fuel = n + 1 := ⟨fuel - 1, by omega⟩
  induction items generalizing fuel name ts with
  | nil =>
    cases hShows
    refine ⟨name, us, ?_, .nil, rfl⟩
    have hStars : typeStarsReader (fuel + 1) name us = .value name us := by
      rw [typeStarsReader, Reader.type_bind, if_neg hStops.2.2.1]
      rfl
    rw [Reader.bind_of_value hStars, typeArraySizeReader, Reader.type_bind, if_pos hStops.2.2.2.1]
    rfl
  | cons item items ih =>
    cases item with
    | star =>
      obtain ⟨vs, hTake, hRest, hLength⟩ := Shows.take hShows hStops.2.2.2.2
      obtain ⟨fuel, rfl⟩ : ∃ n, fuel = n + 1 := ⟨fuel - 1, by omega⟩
      obtain ⟨v, ws, hRead, hLeft, hText⟩ :=
        ih (name ++ ['*']) hRest fuel (by omega)
      refine ⟨v, ws, ?_, hLeft, ?_⟩
      · rw [← hRead]
        have hStar : typeStarsReader (fuel + 1 + 1) name ts =
            typeStarsReader (fuel + 1) (name ++ ['*']) vs := by
          rw [typeStarsReader, Reader.type_bind,
            if_pos (show headType ts = .multiply from hShows.type), Reader.bind_of_value hTake]
        rw [Reader.bind_run, hStar, Reader.bind_run]
      · rw [behindSuffix, hText]
        simp [itemLexemes, Item.lexemes, Lexeme.text, Mark.text]
    | size s =>
      obtain ⟨vs, hOpen, hSize, -⟩ := Shows.take hShows hStops.2.2.2.2
      obtain ⟨ws, hNumber, hClose, -⟩ := Shows.take hSize hStops.2.2.2.2
      obtain ⟨xs, hEnd, hRest, -⟩ := Shows.expect hClose hStops.2.2.2.2
      have hRbracket : Reader.expect .rbracket ws = .value () xs := hEnd
      refine ⟨name ++ ['['] ++ s.1 ++ [']'], xs, ?_, hRest, ?_⟩
      · have hStars : typeStarsReader (fuel + 1) name ts = .value name ts := by
          rw [typeStarsReader, Reader.type_bind, if_neg (by rw [hShows.type]; nofun)]
          rfl
        rw [Reader.bind_of_value hStars, typeArraySizeReader, Reader.type_bind,
          if_neg (by rw [hShows.type]; nofun), Reader.bind_of_value hOpen, Reader.type_bind,
          if_neg (by rw [hSize.type]; nofun), Reader.text_bind, Reader.bind_of_value hNumber,
          Reader.bind_of_value hRbracket, hSize.value]
        rfl
      · simp [behindSuffix, itemLexemes, Item.lexemes, Lexeme.text, Mark.text]

variable {name : Text}

theorem typeQualifiersReader_names {qualifiers : List TypeName}
    (hShows : Shows (qualifierLexemes qualifiers) ts us) (hDot : headType us ≠ .dot)
    (hError : headType us ≠ .error) (hFuel : ts.length < fuel) :
    typeQualifiersReader fuel name ts =
      .value (name ++ flatText (qualifierLexemes qualifiers)) us := by
  obtain ⟨fuel, rfl⟩ : ∃ n, fuel = n + 1 := ⟨fuel - 1, by omega⟩
  induction qualifiers generalizing fuel name ts with
  | nil =>
    cases hShows
    rw [typeQualifiersReader, Reader.type_bind, if_neg hDot]
    simp [qualifierLexemes, Reader.pure_run]
  | cons part qualifiers ih =>
    obtain ⟨vs, hTakeDot, hPart, hLength⟩ := Shows.take hShows hError
    obtain ⟨ws, hTakePart, hRest, hLength'⟩ := Shows.take hPart hError
    obtain ⟨fuel, rfl⟩ : ∃ n, fuel = n + 1 := ⟨fuel - 1, by omega⟩
    have hWord : ¬(!isIdentifierLike (headType vs) && !isTypeKeyword (headType vs)) = true := by
      rw [show headType vs = wordType part.1 from hPart.type]
      rcases part.2.2 with h | h <;> simp [h]
    rw [typeQualifiersReader, Reader.type_bind,
      if_pos (show headType ts = .dot from hShows.type), Reader.bind_of_value hTakeDot,
      Reader.type_bind, if_neg hWord, Reader.text_bind, Reader.bind_of_value hTakePart,
      ih hRest fuel (by omega), show headValue vs = part.1 from hPart.value]
    simp [qualifierLexemes, Lexeme.text, Mark.text]

-- ---
-- Lists of types
-- ---

variable {inner : Reader Text}

section Lists

variable {close : TokenType} {ts us vs : List Token} {v buffer : Text}

theorem typeListReader_first (fuel : Nat) (hClose : headType ts ≠ close)
    (hEof : headType ts ≠ .eof) (hInner : inner ts = .value v us) :
    typeListReader false inner close (fuel + 1) true buffer ts =
      typeListReader false inner close fuel false (buffer ++ v) us := by
  rw [typeListReader, Reader.type_bind, Reader.flag_bind,
    if_neg (by rintro (h | h | h) <;> contradiction), if_pos rfl]
  exact Reader.bind_of_value (Reader.orElse_of_value hInner)

theorem typeListReader_more (fuel : Nat) (hClose : close ≠ .comma)
    (hComma : headType ts = .comma) (hTake : Reader.take ts = .value () us)
    (hInner : inner us = .value v vs) :
    typeListReader false inner close (fuel + 1) false buffer ts =
      typeListReader false inner close fuel false (buffer ++ [','] ++ v) vs := by
  rw [typeListReader, Reader.type_bind, Reader.flag_bind, hComma,
    if_neg (by rintro (h | h | h) <;> first | exact hClose h.symm | cases h),
    if_neg (by decide), if_neg (by decide), Reader.bind_of_value hTake]
  exact Reader.bind_of_value (Reader.orElse_of_value hInner)

theorem typeListReader_close (fuel : Nat) (first : Bool) (hClose : headType ts = close) :
    typeListReader false inner close (fuel + 1) first buffer ts = .value buffer ts := by
  rw [typeListReader, Reader.type_bind, Reader.flag_bind, if_pos (.inl hClose)]
  rfl

end Lists

theorem lexemes_start (type : TypeExpr) :
    ∃ l ls, type.lexemes = l :: ls ∧ (l = .fn ∨ ∃ n, l = .name n) := by
  cases type with
  | named head qualifiers args items =>
    cases args <;> exact ⟨_, _, by rw [TypeExpr.lexemes], .inr ⟨head, rfl⟩⟩
  | function params ret items => exact ⟨_, _, by rw [TypeExpr.lexemes], .inl rfl⟩

theorem TypeName.type_ne (n : TypeName) {t : TokenType} (hKeyword : isTypeKeyword t = false)
    (hIdentifier : isIdentifierLike t = false) : wordType n.1 ≠ t := by
  rintro rfl
  rcases n.2.2 with h | h <;> simp_all

theorem Shows.start_ne (h : Shows (type.lexemes ++ ls) ts us) :
    headType ts ≠ .rparen ∧ headType ts ≠ .greaterThan ∧ headType ts ≠ .eof ∧
      headType ts ≠ .error := by
  obtain ⟨l, ls', hLexemes, hStart⟩ := lexemes_start type
  rw [hLexemes] at h
  rw [show headType ts = l.type from Shows.type h]
  rcases hStart with rfl | ⟨n, rfl⟩
  · exact ⟨nofun, nofun, nofun, nofun⟩
  · exact ⟨n.type_ne rfl rfl, n.type_ne rfl rfl, n.type_ne rfl rfl, n.type_ne rfl rfl⟩

theorem Shows.items_ne (h : Shows (itemLexemes items) ts us) (hStops : Stops us) :
    headType ts ≠ .dot ∧ headType ts ≠ .lessThan ∧ headType ts ≠ .error := by
  cases items with
  | nil =>
    cases h
    exact ⟨hStops.1, hStops.2.1, hStops.2.2.2.2⟩
  | cons item items =>
    cases item with
    | star =>
      rw [show headType ts = .multiply from Shows.type h]
      exact ⟨nofun, nofun, nofun⟩
    | size s =>
      rw [show headType ts = .lbracket from Shows.type h]
      exact ⟨nofun, nofun, nofun⟩

variable {types : List TypeExpr}

theorem Shows.more_stops (h : Shows (moreLexemes types) ts us) (hStops : Stops us) : Stops ts := by
  cases types with
  | nil =>
    cases h
    exact hStops
  | cons type types =>
    exact stops_of_close (.inr (.inr (.inl h.type)))

-- ---
-- Types
-- ---

/-- `inner` reads the tokens of `type`, with what stands behind it. -/
def ReadsType (inner : Reader Text) (type : TypeExpr) (items : List Item)
    (ts us : List Token) : Prop :=
  ∃ v vs, inner ts = .value v vs ∧ Shows (itemLexemes (leftover type items)) vs us ∧
    vs.length ≤ ts.length ∧
    v ++ flatText (itemLexemes (leftover type items)) = type.text ++ flatText (itemLexemes items)

theorem ReadsType.value (h : ReadsType inner type [] ts us) (hWritten : type.Written) :
    inner ts = .value type.text us := by
  obtain ⟨v, vs, hInner, hLeft, -, hText⟩ := h
  rw [leftover_nil hWritten] at hLeft hText
  cases hLeft
  rw [hInner]
  simpa [itemLexemes] using hText

theorem typeArgumentsReader_none (h : headType ts ≠ .lessThan) :
    typeArgumentsReader false inner fuel name ts = .value name ts := by
  rw [typeArgumentsReader, Reader.type_bind, if_neg h]
  rfl

theorem typeBaseReader_name {head : TypeName} (hShows : Shows (.name head :: ls) ts us)
    (hError : headType us ≠ .error) :
    ∃ vs, typeBaseReader false inner fuel ts = .value head.1 vs ∧ Shows ls vs us ∧
      ts.length = vs.length + 1 := by
  obtain ⟨vs, hTake, hRest, hLength⟩ := hShows.take hError
  have hType : headType ts = wordType head.1 := hShows.type
  have hWord : ¬(!isTypeKeyword (wordType head.1) && !isIdentifierLike (wordType head.1)) =
      true := by
    rcases head.2.2 with h | h <;> simp [h]
  refine ⟨vs, ?_, hRest, hLength⟩
  rw [typeBaseReader, Reader.type_bind, hType, if_neg (head.type_ne rfl rfl), if_neg hWord,
    Reader.text_bind, Reader.bind_of_value hTake, show headValue ts = head.1 from hShows.value]
  rfl

/-- The list reader at `fuel` gets through `types`, with fuel to spare. -/
def ReadsMore (fuel : Nat) (types : List TypeExpr) (ts us : List Token) : Prop :=
  ∀ close buffer m, close ≠ .comma → ts.length < m → ∃ m', us.length < m' ∧
    typeListReader false (typeAnnotationReader false fuel) close m false buffer ts =
      typeListReader false (typeAnnotationReader false fuel) close m' false
        (buffer ++ flatText (moreLexemes types)) us

/-- The list reader at `fuel` gets through `types` up to `close`. -/
def ReadsList (fuel : Nat) (types : List TypeExpr) (close : TokenType) (ts us : List Token) :
    Prop :=
  ∀ m, ts.length + 1 < m →
    typeListReader false (typeAnnotationReader false fuel) close m true [] ts =
      .value (flatText (listLexemes types)) us

variable {vs : List Token}

theorem readsList_cons {close : TokenType}
    (hFirst : typeAnnotationReader false fuel ts = .value type.text us)
    (hMore : ReadsMore fuel types us vs) (hComma : close ≠ .comma) (hStart : headType ts ≠ close)
    (hEof : headType ts ≠ .eof) (hClose : headType vs = close) (hShorter : us.length ≤ ts.length) :
    ReadsList fuel (type :: types) close ts vs := by
  intro m hm
  obtain ⟨m, rfl⟩ : ∃ n, m = n + 1 := ⟨m - 1, by omega⟩
  rw [typeListReader_first m hStart hEof hFirst]
  obtain ⟨m', hLess, hList⟩ := hMore close ([] ++ type.text) m hComma (by omega)
  obtain ⟨m', rfl⟩ : ∃ n, m' = n + 1 := ⟨m' - 1, by omega⟩
  rw [hList, typeListReader_close m' false hClose, listLexemes]
  simp [TypeExpr.text]

theorem typeArgumentsReader_all {m : Nat} (name : Text) {args : List TypeExpr} {ws : List Token}
    (hOpen : headType ts = .lessThan) (hTake : Reader.take ts = .value () us)
    (hArgs : ReadsList fuel args .greaterThan us vs) (hFuel : us.length + 1 < m)
    (hClose : Shows (.mark .greater :: itemLexemes items) vs ws) (hError : headType ws ≠ .error) :
    ∃ xs, typeArgumentsReader false (typeAnnotationReader false fuel) m name ts =
        .value (name ++ ['<'] ++ flatText (listLexemes args) ++ ['>']) xs ∧
      Shows (itemLexemes items) xs ws ∧ vs.length = xs.length + 1 := by
  obtain ⟨xs, hExpect, hItems, hLength⟩ := hClose.expect hError
  have hExpect : Reader.expect .greaterThan vs = .value () xs := hExpect
  refine ⟨xs, ?_, hItems, hLength⟩
  rw [typeArgumentsReader, Reader.type_bind, if_pos hOpen, Reader.bind_of_value hTake,
    Reader.bind_of_value (hArgs m hFuel), Reader.bind_of_value hExpect]
  rfl

theorem typeBaseReader_function {m : Nat} {params : List TypeExpr}
    (hShows : Shows (.fn :: .mark .lparen :: (listLexemes params ++
      .mark .rparen :: .mark .arrow :: ls)) ts us) (hError : headType us ≠ .error)
    (hFuel : ts.length ≤ m)
    (hParams : ∀ xs ys, Shows (listLexemes params) xs ys → headType ys = .rparen →
      xs.length + 2 = ts.length → ReadsList fuel params .rparen xs ys) :
    ∃ xs, Shows ls xs us ∧ xs.length + 4 ≤ ts.length ∧
      ∀ v ys, typeAnnotationReader false fuel xs = .value v ys →
        typeBaseReader false (typeAnnotationReader false fuel) m ts =
          .value ("fn(".toList ++ flatText (listLexemes params) ++ ")->".toList ++ v) ys := by
  obtain ⟨ts₁, hFn, hOpen, hLength₁⟩ := hShows.take hError
  obtain ⟨ts₂, hTakeOpen, hList, hLength₂⟩ := hOpen.expect hError
  obtain ⟨ts₃, hList, hClose⟩ := shows_append.mp hList
  obtain ⟨ts₄, hTakeClose, hArrow, hLength₄⟩ := hClose.expect hError
  obtain ⟨ts₅, hTakeArrow, hRet, hLength₅⟩ := hArrow.expect hError
  have hTakeOpen : Reader.expect .lparen ts₁ = .value () ts₂ := hTakeOpen
  have hTakeClose : Reader.expect .rparen ts₃ = .value () ts₄ := hTakeClose
  have hTakeArrow : Reader.expect .arrow ts₄ = .value () ts₅ := hTakeArrow
  have hLength₃ := hList.length
  refine ⟨ts₅, hRet, by omega, fun v ys hInner => ?_⟩
  rw [typeBaseReader, Reader.type_bind, if_pos (show headType ts = .kwFn from hShows.type),
    functionPointerReader, Reader.bind_of_value hFn, Reader.bind_of_value hTakeOpen,
    Reader.bind_of_value (hParams ts₂ ts₃ hList hClose.type (by omega) m (by omega)),
    Reader.bind_of_value hTakeClose, Reader.bind_of_value hTakeArrow,
    Reader.bind_of_value (Reader.orElse_of_value hInner)]
  rfl

theorem readerWith_all {base applied : Text} {ws xs : List Token}
    (hBase : typeBaseReader false inner fuel ts = .value base us)
    (hName : typeQualifiersReader fuel base us = .value name vs)
    (hApplied : typeArgumentsReader false inner fuel name vs = .value applied ws)
    (hItems : Shows (itemLexemes items) ws xs) (hStops : Stops xs) (hFuel : ws.length < fuel) :
    ∃ v ys, readerWith false inner fuel ts = .value v ys ∧
      Shows (itemLexemes (behindSuffix items)) ys xs ∧ ys.length ≤ ws.length ∧
      v ++ flatText (itemLexemes (behindSuffix items)) =
        applied ++ flatText (itemLexemes items) := by
  obtain ⟨v, ys, hSuffix, hLeft, hText⟩ :=
    suffixReader_items applied hItems hStops hFuel
  have hLengthItems := hItems.length
  have hLengthLeft := hLeft.length
  have := itemLexemes_length_le (behindSuffix_suffix items)
  refine ⟨v, ys, ?_, hLeft, by omega, hText⟩
  rw [readerWith, Reader.bind_of_value hBase, Reader.bind_of_value hName,
    Reader.bind_of_value hApplied]
  exact hSuffix

mutual

theorem reads_type {type : TypeExpr} (hWritten : type.Written) (items : List Item) {fuel : Nat}
    {ts us : List Token} (hShows : Shows (type.lexemes ++ itemLexemes items) ts us)
    (hStops : Stops us) (hFuel : ts.length < fuel) :
    ReadsType (typeAnnotationReader false fuel) type items ts us := by
  obtain ⟨fuel, rfl⟩ : ∃ n, fuel = n + 1 := ⟨fuel - 1, by omega⟩
  have hError := hStops.2.2.2.2
  match type, hWritten with
  | .named head qualifiers [] own, hWritten =>
    rw [TypeExpr.lexemes, cons_append, append_assoc, ← itemLexemes_append] at hShows
    obtain ⟨ts₁, hBase, hRest, hLength⟩ := typeBaseReader_name hShows hError
    obtain ⟨ts₂, hNames, hItems⟩ := shows_append.mp hRest
    have hNext := hItems.items_ne hStops
    have hLength₂ := hNames.length
    have hFuel₁ : ts₁.length < fuel := by omega
    obtain ⟨v, vs, hRead, hLeft, hShorter, hText⟩ := readerWith_all hBase
      (typeQualifiersReader_names hNames hNext.1 hNext.2.2 hFuel₁)
      (typeArgumentsReader_none hNext.2.1) hItems hStops (by omega)
    exact ⟨v, vs, hRead, hLeft, by omega, by
      rw [leftover, hText]
      simp [TypeExpr.text, TypeExpr.lexemes, itemLexemes_append, Lexeme.text]⟩
  | .named head qualifiers (arg :: args) own, hWritten =>
    have hLexemes : (TypeExpr.named head qualifiers (arg :: args) own).lexemes ++
        itemLexemes items = .name head :: (qualifierLexemes qualifiers ++ .mark .less ::
          (listLexemes (arg :: args) ++ .mark .greater :: itemLexemes (own ++ items))) := by
      simp [TypeExpr.lexemes, listLexemes, itemLexemes_append]
    rw [hLexemes] at hShows
    obtain ⟨ts₁, hBase, hRest, hLength₁⟩ := typeBaseReader_name hShows hError
    obtain ⟨ts₂, hNames, hOpen⟩ := shows_append.mp hRest
    have hType₂ : headType ts₂ = .lessThan := hOpen.type
    obtain ⟨ts₃, hTake, hList, hLength₃⟩ := hOpen.take hError
    obtain ⟨ts₄, hList, hClose⟩ := shows_append.mp hList
    have hLength₂ := hNames.length
    have hLength₄ := hList.length
    have hFuel₁ : ts₁.length < fuel := by omega
    have hFuel₃ : ts₃.length + 1 < fuel := by omega
    have hFuel₄ : ts₃.length < fuel := by omega
    obtain ⟨ts₅, hArgs, hItems, hLength₅⟩ := typeArgumentsReader_all
      (head.1 ++ flatText (qualifierLexemes qualifiers)) hType₂ hTake
      (reads_list hWritten.1 hList (.inr rfl) hClose.type hFuel₄) hFuel₃ hClose hError
    obtain ⟨v, vs, hRead, hLeft, hShorter, hText⟩ := readerWith_all hBase
      (typeQualifiersReader_names hNames (by rw [hType₂]; nofun) (by rw [hType₂]; nofun)
        hFuel₁) hArgs hItems hStops (by omega)
    exact ⟨v, vs, hRead, hLeft, by omega, by
      rw [leftover, hText, TypeExpr.text, ← flatText_append, hLexemes]
      simp [Lexeme.text, Mark.text]⟩
  | .function params ret own, hWritten =>
    have hLexemes : (TypeExpr.function params ret own).lexemes ++ itemLexemes items =
        .fn :: .mark .lparen :: (listLexemes params ++ .mark .rparen :: .mark .arrow ::
          (ret.lexemes ++ itemLexemes (own ++ items))) := by
      simp [TypeExpr.lexemes, itemLexemes_append]
    rw [hLexemes] at hShows
    have hParams : ∀ xs ys, Shows (listLexemes params) xs ys → headType ys = .rparen →
        xs.length + 2 = ts.length → ReadsList fuel params .rparen xs ys := by
      intro xs ys hList hClose hLength
      have hFuel' : xs.length < fuel := by omega
      exact reads_list hWritten.1 hList (.inl rfl) hClose hFuel'
    obtain ⟨ts₁, hRet, hLength₁, hBase⟩ :=
      typeBaseReader_function hShows hError (Nat.le_of_lt_succ hFuel) hParams
    have hFuel₁ : ts₁.length < fuel := by omega
    obtain ⟨v₁, ts₂, hRead₁, hLeft₁, hShorter₁, hText₁⟩ :=
      reads_type hWritten.2.1 (own ++ items) hRet hStops hFuel₁
    have hNext := hLeft₁.items_ne hStops
    have hNames : Shows (qualifierLexemes []) ts₂ ts₂ := .nil
    obtain ⟨v, vs, hRead, hLeft, hShorter, hText⟩ := readerWith_all (hBase v₁ ts₂ hRead₁)
      (typeQualifiersReader_names hNames hNext.1 hNext.2.2 (by omega))
      (typeArgumentsReader_none hNext.2.1) hLeft₁ hStops (by omega)
    exact ⟨v, vs, hRead, hLeft, by omega, by
      rw [leftover, hText, TypeExpr.text, ← flatText_append, hLexemes]
      simp [Lexeme.text, Mark.text, qualifierLexemes, hText₁, TypeExpr.text]⟩

theorem reads_list {types : List TypeExpr} (hWritten : AllWritten types) {fuel : Nat}
    {close : TokenType} {ts us : List Token} (hShows : Shows (listLexemes types) ts us)
    (hMark : close = .rparen ∨ close = .greaterThan) (hClose : headType us = close)
    (hFuel : ts.length < fuel) : ReadsList fuel types close ts us := by
  match types, hWritten with
  | [], _ =>
    cases hShows
    intro m hm
    obtain ⟨m, rfl⟩ : ∃ n, m = n + 1 := ⟨m - 1, by omega⟩
    exact typeListReader_close m true hClose
  | type :: types, hWritten =>
    have hStart := hShows.start_ne
    obtain ⟨ts₁, hFirst, hMore⟩ := shows_append.mp hShows
    have hLength₁ := hFirst.length
    have hStops : Stops us := stops_of_close (by rw [hClose]; tauto)
    have hFuel₁ : ts₁.length ≤ fuel := by omega
    have hRead := (reads_type hWritten.1 [] (by simpa [itemLexemes] using hFirst)
      (hMore.more_stops hStops) hFuel).value hWritten.1
    have hComma : close ≠ .comma := by rcases hMark with rfl | rfl <;> nofun
    have hBefore : headType ts ≠ close := by
      rcases hMark with rfl | rfl
      · exact hStart.1
      · exact hStart.2.1
    exact readsList_cons hRead (reads_more hWritten.2 hMore hStops hFuel₁) hComma hBefore
      hStart.2.2.1 hClose (by omega)

theorem reads_more {types : List TypeExpr} (hWritten : AllWritten types) {fuel : Nat}
    {ts us : List Token} (hShows : Shows (moreLexemes types) ts us) (hStops : Stops us)
    (hFuel : ts.length ≤ fuel) : ReadsMore fuel types ts us := by
  intro close buffer m hComma hm
  match types, hWritten with
  | [], _ =>
    rw [moreLexemes] at hShows ⊢
    cases hShows
    exact ⟨m, hm, by simp⟩
  | type :: types, hWritten =>
    have hType : headType ts = .comma := hShows.type
    obtain ⟨ts₁, hTake, hRest, hLength₁⟩ := hShows.take hStops.2.2.2.2
    obtain ⟨ts₂, hFirst, hMore⟩ := shows_append.mp hRest
    have hLength₂ := hFirst.length
    have hFuel₁ : ts₁.length < fuel := by omega
    have hFuel₂ : ts₂.length ≤ fuel := by omega
    have hRead := (reads_type hWritten.1 [] (by simpa [itemLexemes] using hFirst)
      (hMore.more_stops hStops) hFuel₁).value hWritten.1
    obtain ⟨m, rfl⟩ : ∃ n, m = n + 1 := ⟨m - 1, by omega⟩
    obtain ⟨m', hLess, hList⟩ := reads_more hWritten.2 hMore hStops hFuel₂ close
      (buffer ++ [','] ++ type.text) m hComma (by omega)
    refine ⟨m', hLess, ?_⟩
    rw [typeListReader_more m hComma hType hTake hRead, hList]
    simp [moreLexemes, TypeExpr.text, Lexeme.text, Mark.text]

end

/-- **The reader takes the tokens of a written type and returns its text.** -/
theorem typeAnnotationReader_lexemes (hWritten : type.Written) (hShows : Shows type.lexemes ts us)
    (hStops : Stops us) (hFuel : ts.length < fuel) :
    typeAnnotationReader false fuel ts = .value type.text us :=
  (reads_type hWritten [] (by simpa [itemLexemes] using hShows) hStops hFuel).value hWritten

-- ---
-- Glued marks
-- ---

/-- A token that starts with `>` and is more than that. -/
def GluedType (t : TokenType) : Prop := t = .rshift ∨ t = .greaterEquals ∨ t = .rshiftEquals

/-- The tokens `ts` are those of `ls` up to a closing `>` that has become part of
a longer token. -/
inductive Breaks : List Lexeme → List Token → Prop where
  | here {ls : List Lexeme} {ts : List Token} (hGlued : GluedType (headType ts)) :
      Breaks (.mark .greater :: ls) ts
  | later {l : Lexeme} {ls : List Lexeme} {t : Token} {ts : List Token}
      (hType : t.type = l.type) (hValue : cString (t.value.getD []) = l.text)
      (hRest : Breaks ls ts) : Breaks (l :: ls) (t :: ts)

theorem breaks_append :
    Breaks (ls ++ ls') ts ↔ Breaks ls ts ∨ ∃ us, Shows ls ts us ∧ Breaks ls' us := by
  constructor
  · intro h
    induction ls generalizing ts with
    | nil => exact .inr ⟨ts, .nil, h⟩
    | cons l ls ih =>
      cases h with
      | here hGlued => exact .inl (.here hGlued)
      | later hType hValue hRest =>
        rcases ih hRest with hBreaks | ⟨us, hUs, hBreaks⟩
        · exact .inl (.later hType hValue hBreaks)
        · exact .inr ⟨us, .cons hType hValue hUs, hBreaks⟩
  · rintro (h | ⟨us, hUs, hBreaks⟩)
    · induction h with
      | here hGlued => exact .here hGlued
      | later hType hValue _ ih => exact .later hType hValue ih
    · induction hUs with
      | nil => exact hBreaks
      | cons hType hValue _ ih => exact .later hType hValue (ih hBreaks)

theorem Breaks.greater_mem (h : Breaks ls ts) : .mark .greater ∈ ls := by
  induction h with
  | here => exact mem_cons_self
  | later _ _ _ ih => exact mem_cons_of_mem _ ih

theorem Breaks.behind (h : Breaks (ls ++ ls') ts) (hNone : Lexeme.mark .greater ∉ ls)
    : ∃ us, Shows ls ts us ∧ Breaks ls' us :=
  (breaks_append.mp h).resolve_left fun hBreaks => hNone hBreaks.greater_mem

theorem GluedType.stops (h : GluedType (headType ts)) : Stops ts := by
  rcases h with h | h | h <;> rw [Stops, h] <;> decide

theorem Breaks.no_error (h : Breaks ls ts) : headType ts ≠ .error := by
  cases h with
  | here hGlued => exact hGlued.stops.2.2.2.2
  | @later l _ t _ hType =>
    show t.type ≠ .error
    rw [hType]
    exact lexeme_type_ne_error l

theorem Breaks.start_ne (h : Breaks (type.lexemes ++ ls) ts) :
    headType ts ≠ .rparen ∧ headType ts ≠ .greaterThan ∧ headType ts ≠ .eof := by
  obtain ⟨l, ls', hLexemes, hStart⟩ := lexemes_start type
  have hNone : Lexeme.mark .greater ∉ [l] := by
    rcases hStart with rfl | ⟨n, rfl⟩ <;> simp
  rw [hLexemes] at h
  obtain ⟨us, hFirst, -⟩ := Breaks.behind (show Breaks ([l] ++ _) ts from h) hNone
  rw [show headType ts = l.type from hFirst.type]
  rcases hStart with rfl | ⟨n, rfl⟩
  · exact ⟨nofun, nofun, nofun⟩
  · exact ⟨n.type_ne rfl rfl, n.type_ne rfl rfl, n.type_ne rfl rfl⟩

theorem Breaks.more_stops (h : Breaks (moreLexemes types ++ [.mark .greater]) ts) : Stops ts := by
  cases types with
  | nil =>
    cases h with
    | here hGlued => exact hGlued.stops
    | later _ _ hRest => cases hRest
  | cons type types =>
    obtain ⟨us, hComma, -⟩ := Breaks.behind (show Breaks ([.mark .comma] ++ _) ts from h) (by decide)
    exact stops_of_close (.inr (.inr (.inl hComma.type)))

theorem greater_notMem_names (qualifiers : List TypeName) :
    Lexeme.mark .greater ∉ qualifierLexemes qualifiers := by
  simp [qualifierLexemes]

theorem greater_notMem_items (items : List Item) : Lexeme.mark .greater ∉ itemLexemes items := by
  intro h
  obtain ⟨item, -, hItem⟩ := mem_flatMap.mp h
  cases item <;> simp [Item.lexemes] at hItem

section Lists

variable {close : TokenType} {ts us : List Token} {buffer : Text}

theorem typeListReader_glued (fuel : Nat) (hMark : close = .rparen ∨ close = .greaterThan)
    (hGlued : GluedType (headType ts)) :
    typeListReader false inner close (fuel + 1) false buffer ts = .slip := by
  have hStop : ¬(headType ts = close ∨ headType ts = .eof ∨ false = true) := by
    rcases hGlued with h | h | h <;> rw [h] <;> rcases hMark with rfl | rfl <;> decide
  have hComma : headType ts ≠ .comma := by
    rcases hGlued with h | h | h <;> rw [h] <;> decide
  rw [typeListReader, Reader.type_bind, Reader.flag_bind, if_neg hStop, if_neg (by decide),
    if_pos hComma]
  rfl

theorem typeListReader_slip_first (fuel : Nat) (hClose : headType ts ≠ close)
    (hEof : headType ts ≠ .eof) (hInner : inner ts = .slip) :
    typeListReader false inner close (fuel + 1) true buffer ts = .slip := by
  rw [typeListReader, Reader.type_bind, Reader.flag_bind,
    if_neg (by rintro (h | h | h) <;> contradiction), if_pos rfl]
  show (inner.orElse (missingReader false) >>= fun one =>
    typeListReader false inner close fuel false (buffer ++ one)) ts = .slip
  exact Reader.bind_of_slip (Reader.orElse_of_slip hInner)

theorem typeListReader_slip_more (fuel : Nat) (hClose : close ≠ .comma)
    (hComma : headType ts = .comma) (hTake : Reader.take ts = .value () us)
    (hInner : inner us = .slip) :
    typeListReader false inner close (fuel + 1) false buffer ts = .slip := by
  rw [typeListReader, Reader.type_bind, Reader.flag_bind, hComma,
    if_neg (by rintro (h | h | h) <;> first | exact hClose h.symm | cases h),
    if_neg (by decide), if_neg (by decide), Reader.bind_of_value hTake]
  show (inner.orElse (missingReader false) >>= fun one =>
    typeListReader false inner close fuel false (buffer ++ [','] ++ one)) us = .slip
  exact Reader.bind_of_slip (Reader.orElse_of_slip hInner)

end Lists

mutual

theorem slips_type {type : TypeExpr} (hWritten : type.Written) {fuel : Nat} {ts : List Token}
    (hBreaks : Breaks type.lexemes ts) (hFuel : ts.length < fuel) :
    typeAnnotationReader false fuel ts = .slip := by
  obtain ⟨fuel, rfl⟩ : ∃ n, fuel = n + 1 := ⟨fuel - 1, by omega⟩
  match type, hWritten with
  | .named head qualifiers [] own, _ =>
    have hNone := hBreaks.greater_mem
    simp [TypeExpr.lexemes, greater_notMem_names, greater_notMem_items] at hNone
  | .named head qualifiers (arg :: args) own, hWritten =>
    have hLexemes : (TypeExpr.named head qualifiers (arg :: args) own).lexemes =
        (.name head :: (qualifierLexemes qualifiers ++ [.mark .less])) ++
          ((listLexemes (arg :: args) ++ [.mark .greater]) ++ itemLexemes own) := by
      simp [TypeExpr.lexemes, listLexemes]
    rw [hLexemes] at hBreaks
    obtain ⟨ts₁, hHead, hBreaks⟩ := hBreaks.behind (by simp [greater_notMem_names])
    have hError := hBreaks.no_error
    have hList : Breaks (listLexemes (arg :: args) ++ [.mark .greater]) ts₁ := by
      rcases breaks_append.mp hBreaks with h | ⟨us, -, h⟩
      · exact h
      · exact absurd h.greater_mem (greater_notMem_items own)
    obtain ⟨ts₂, hBase, hRest, hLength₂⟩ := typeBaseReader_name hHead hError
    obtain ⟨ts₃, hNames, hLess⟩ := shows_append.mp hRest
    have hType₃ : headType ts₃ = .lessThan := hLess.type
    obtain ⟨ts₄, hTake, hNil, hLength₄⟩ := hLess.take hError
    cases hNil
    have hLength₃ := hNames.length
    have hFuel₁ : ts₁.length < fuel := by omega
    have hFuel₂ : ts₂.length < fuel := by omega
    have hFuel₃ : ts₁.length + 1 < fuel := by omega
    have hSlip := slips_list hWritten.1 hList (cons_ne_nil _ _) (.inr rfl) hFuel₁ fuel hFuel₃
    rw [typeAnnotationReader, readerWith, Reader.bind_of_value hBase,
      Reader.bind_of_value (typeQualifiersReader_names hNames (by rw [hType₃]; nofun)
        (by rw [hType₃]; nofun) hFuel₂)]
    refine Reader.bind_of_slip ?_
    rw [typeArgumentsReader, Reader.type_bind, if_pos hType₃, Reader.bind_of_value hTake]
    exact Reader.bind_of_slip hSlip
  | .function params ret own, hWritten =>
    have hLexemes : (TypeExpr.function params ret own).lexemes =
        [.fn, .mark .lparen] ++ (listLexemes params ++
          ([.mark .rparen, .mark .arrow] ++ (ret.lexemes ++ itemLexemes own))) := by
      simp [TypeExpr.lexemes]
    rw [hLexemes] at hBreaks
    obtain ⟨ts₁, hHead, hBreaks⟩ := hBreaks.behind (by decide)
    have hError₁ := hBreaks.no_error
    have hType : headType ts = .kwFn := hHead.type
    obtain ⟨ts₂, hFn, hOpen, hLength₂⟩ := hHead.take hError₁
    obtain ⟨ts₃, hTakeOpen, hNil, hLength₃⟩ := hOpen.expect hError₁
    cases hNil
    have hTakeOpen : Reader.expect .lparen ts₂ = .value () ts₁ := hTakeOpen
    have hFuel₁ : ts₁.length < fuel := by omega
    have hFuel₂ : ts₁.length + 1 < fuel := by omega
    have hBase : typeBaseReader false (typeAnnotationReader false fuel) fuel ts = .slip := by
      rw [typeBaseReader, Reader.type_bind, if_pos hType, functionPointerReader,
        Reader.bind_of_value hFn, Reader.bind_of_value hTakeOpen]
      rcases breaks_append.mp hBreaks with hList | ⟨ts₄, hList, hBreaks⟩
      · refine Reader.bind_of_slip (slips_list hWritten.1 (breaks_append.mpr (.inl hList)) ?_
          (.inl rfl) hFuel₁ fuel hFuel₂)
        rintro rfl
        cases hList
      · obtain ⟨ts₅, hMarks, hBreaks⟩ := hBreaks.behind (by decide)
        have hError₅ := hBreaks.no_error
        have hRet : Breaks ret.lexemes ts₅ := by
          rcases breaks_append.mp hBreaks with h | ⟨us, -, h⟩
          · exact h
          · exact absurd h.greater_mem (greater_notMem_items own)
        have hClose : headType ts₄ = .rparen := hMarks.type
        obtain ⟨ts₆, hTakeClose, hArrow, hLength₆⟩ := hMarks.expect hError₅
        obtain ⟨ts₇, hTakeArrow, hNil, hLength₇⟩ := hArrow.expect hError₅
        cases hNil
        have hTakeClose : Reader.expect .rparen ts₄ = .value () ts₆ := hTakeClose
        have hTakeArrow : Reader.expect .arrow ts₆ = .value () ts₅ := hTakeArrow
        have hLength₁ := hList.length
        rw [Reader.bind_of_value (reads_list hWritten.1 hList (.inl rfl) hClose hFuel₁ fuel hFuel₂),
          Reader.bind_of_value hTakeClose, Reader.bind_of_value hTakeArrow]
        exact Reader.bind_of_slip (Reader.orElse_of_slip (slips_type hWritten.2.1 hRet (by omega)))
    exact Reader.bind_of_slip hBase

theorem slips_list {types : List TypeExpr} (hWritten : AllWritten types) {fuel : Nat}
    {close : TokenType} {ts : List Token}
    (hBreaks : Breaks (listLexemes types ++ [.mark .greater]) ts) (hSome : types ≠ [])
    (hMark : close = .rparen ∨ close = .greaterThan) (hFuel : ts.length < fuel) (m : Nat)
    (hm : ts.length + 1 < m) :
    typeListReader false (typeAnnotationReader false fuel) close m true [] ts = .slip := by
  match types, hWritten with
  | [], _ => exact absurd rfl hSome
  | type :: types, hWritten =>
    obtain ⟨m, rfl⟩ : ∃ n, m = n + 1 := ⟨m - 1, by omega⟩
    rw [listLexemes, append_assoc] at hBreaks
    have hStart := hBreaks.start_ne
    have hBefore : headType ts ≠ close := by
      rcases hMark with rfl | rfl
      · exact hStart.1
      · exact hStart.2.1
    rcases breaks_append.mp hBreaks with hFirst | ⟨ts₁, hFirst, hMore⟩
    · exact typeListReader_slip_first m hBefore hStart.2.2 (slips_type hWritten.1 hFirst hFuel)
    · have hLength := hFirst.length
      have hFuel₁ : ts₁.length < fuel := by omega
      have hRead := typeAnnotationReader_lexemes hWritten.1 hFirst hMore.more_stops hFuel
      rw [typeListReader_first m hBefore hStart.2.2 hRead]
      exact slips_more hWritten.2 hMore hMark hFuel₁ m (by omega)

theorem slips_more {types : List TypeExpr} (hWritten : AllWritten types) {fuel : Nat}
    {close : TokenType} {ts : List Token} {buffer : Text}
    (hBreaks : Breaks (moreLexemes types ++ [.mark .greater]) ts)
    (hMark : close = .rparen ∨ close = .greaterThan) (hFuel : ts.length < fuel) (m : Nat)
    (hm : ts.length < m) :
    typeListReader false (typeAnnotationReader false fuel) close m false buffer ts = .slip := by
  obtain ⟨m, rfl⟩ : ∃ n, m = n + 1 := ⟨m - 1, by omega⟩
  match types, hWritten with
  | [], _ =>
    cases hBreaks with
    | here hGlued => exact typeListReader_glued m hMark hGlued
    | later _ _ hRest => cases hRest
  | type :: types, hWritten =>
    have hComma : close ≠ .comma := by rcases hMark with rfl | rfl <;> nofun
    rw [moreLexemes, cons_append, append_assoc] at hBreaks
    obtain ⟨ts₁, hShows, hRest⟩ := Breaks.behind (show Breaks ([.mark .comma] ++ _) ts from hBreaks)
      (by decide)
    have hType : headType ts = .comma := hShows.type
    obtain ⟨ts₂, hTake, hNil, hLength⟩ := hShows.take hRest.no_error
    cases hNil
    have hFuel₁ : ts₁.length < fuel := by omega
    rcases breaks_append.mp hRest with hFirst | ⟨ts₂, hFirst, hMore⟩
    · exact typeListReader_slip_more m hComma hType hTake (slips_type hWritten.1 hFirst hFuel₁)
    · have hLength₂ := hFirst.length
      have hFuel₂ : ts₂.length < fuel := by omega
      have hRead := typeAnnotationReader_lexemes hWritten.1 hFirst hMore.more_stops hFuel₁
      rw [typeListReader_more m hComma hType hTake hRead]
      exact slips_more hWritten.2 hMore hMark hFuel₂ m (by omega)

end

end Mettle.Parser
