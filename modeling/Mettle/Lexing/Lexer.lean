import Mettle.Lib.Loops

/-!
# Mettle — the lexer

`lexer_next_token` and what it calls, over a source text. A text is its list of
characters; a C character is one of them, and the character classes are those
of the C locale. A lexer is its source and where it stands: position, line,
column and the depth of open brackets, inside which a line end is white space.

The error text that `lexer_set_error` keeps in the lexer is left out: nothing
reads it, an error reaches the parser as a `TOKEN_ERROR`. A token keeps its
value, the length of its lexeme and whether the value is shared (interned or
static) text.
-/

namespace Mettle.Lexing

open Mettle.Lib

abbrev Text := List Char

-- ---
-- Tokens
-- ---

/-- The x86 mnemonics among the tokens, `TOKEN_MOV` to `TOKEN_SYSCALL`. -/
inductive Mnemonic where
  | mov | add | sub | mul | div | imul | idiv | inc | dec | cmp
  | jmp | je | jne | jl | jle | jg | jge | call | ret | push | pop
  | lea | nop | int | syscall
deriving DecidableEq

/-- The x86 registers among the tokens, `TOKEN_EAX` to `TOKEN_R15`. -/
inductive Register where
  | eax | ebx | ecx | edx | esi | edi | esp | ebp
  | rax | rbx | rcx | rdx | rsi | rdi | rsp | rbp
  | r8 | r9 | r10 | r11 | r12 | r13 | r14 | r15
deriving DecidableEq

/-- The types of tokens. -/
inductive TokenType where
  | eof | identifier | number | string
  | kwImport | kwImportStr | kwExtern | kwExport | kwVar | kwFunction | kwStruct | kwEnum
  | kwMethod | kwReturn | kwIf | kwElse | kwWhile | kwFor | kwSwitch | kwCase | kwDefault
  | kwBreak | kwContinue | kwDefer | kwErrdefer | kwAsm | kwThis | kwNew | kwTrait | kwImpl
  | kwWhere | kwFn | kwMatch
  | int8 | int16 | int32 | int64 | uint8 | uint16 | uint32 | uint64 | float32 | float64
  | stringType
  | colon | semicolon | comma | equals | plusEquals | minusEquals | starEquals | slashEquals
  | percentEquals | ampEquals | pipeEquals | caretEquals | lshiftEquals | rshiftEquals
  | equalsEquals | notEquals | lessThan | greaterThan | lessEquals | greaterEquals | arrow
  | lparen | rparen | lbrace | rbrace | lbracket | rbracket
  | plus | minus | multiply | ampersand | pipe | caret | lshift | rshift | tilde
  | andAnd | orOr | divide | percent | not | dot | newline
  | mnemonic (m : Mnemonic) | register (r : Register)
  | error
deriving DecidableEq

/-- `Token`: `value` is absent where the source has a null pointer. -/
structure Token where
  type : TokenType
  value : Option Text := none
  isInterned : Bool := false
  lexemeLength : Nat := 0
  line : Nat
  column : Nat
deriving DecidableEq

def cString (t : Text) : Text := t.takeWhile fun c => c.toNat ≠ 0

/-- `token_clone`: a value that is not shared is copied as a C string. -/
def Token.clone (token : Token) : Token :=
  if token.isInterned then token else { token with value := token.value.map cString }

-- ---
-- Character classes
-- ---

def tab : Char := Char.ofNat 9
def carriageReturn : Char := Char.ofNat 13
def backslash : Char := Char.ofNat 92
def apostrophe : Char := Char.ofNat 39
def doubleQuote : Char := Char.ofNat 34

/-- `isspace`: blank, and the five control characters from tab to return. -/
def isSpace (c : Char) : Bool := c = ' ' || (9 ≤ c.toNat && c.toNat ≤ 13)

def isDigit (c : Char) : Bool := c.isDigit

/-- `isxdigit`. -/
def isHexDigit (c : Char) : Bool :=
  c.isDigit || ('a' ≤ c && c ≤ 'f') || ('A' ≤ c && c ≤ 'F')

/-- What starts a word: `isalpha` or an underscore. -/
def isWordStart (c : Char) : Bool := c.isAlpha || c = '_'

/-- What goes on a word: `isalnum` or an underscore. -/
def isWordChar (c : Char) : Bool := c.isAlphanum || c = '_'

-- ---
-- The lexer's state
-- ---

/-- The state of the lexer. -/
structure Lexer where
  source : Text
  position : Nat
  line : Nat
  column : Nat
  continuationDepth : Nat
deriving DecidableEq

/-- `lexer_create`. -/
def Lexer.create (source : Text) : Lexer :=
  { source := source, position := 0, line := 1, column := 1, continuationDepth := 0 }

namespace Lexer

def rest (lx : Lexer) : Text := lx.source.drop lx.position

/-- `n` characters further on the line. -/
def skip (lx : Lexer) (n : Nat) : Lexer :=
  { lx with position := lx.position + n, column := lx.column + n }

def nextLine (lx : Lexer) : Lexer :=
  { lx with position := lx.position + 1, line := lx.line + 1, column := 1 }

@[simp] theorem skip_source (lx : Lexer) (n : Nat) : (lx.skip n).source = lx.source := rfl

@[simp] theorem skip_position (lx : Lexer) (n : Nat) :
    (lx.skip n).position = lx.position + n := rfl

@[simp] theorem nextLine_source (lx : Lexer) : lx.nextLine.source = lx.source := rfl

@[simp] theorem nextLine_position (lx : Lexer) : lx.nextLine.position = lx.position + 1 := rfl

theorem rest_skip (lx : Lexer) (n : Nat) : (lx.skip n).rest = lx.rest.drop n := by
  rw [rest, rest, List.drop_drop, skip_source, skip_position]

theorem rest_nextLine (lx : Lexer) : lx.nextLine.rest = lx.rest.drop 1 := by
  rw [rest, rest, List.drop_drop, nextLine_source, nextLine_position]

end Lexer

/-- A `TOKEN_ERROR` at the place of `lx`. -/
def errorToken (lx : Lexer) (message : String) : Token :=
  { type := .error, value := some message.toList, line := lx.line, column := lx.column }

-- ---
-- White space and comments
-- ---

/-- The loop at the head of `lexer_next_token`. -/
def skipSpace : Text → Lexer → Lexer
  | [], lx => lx
  | c :: rest, lx =>
    if !isSpace c then lx
    else if c = '\n' then
      if 0 < lx.continuationDepth then skipSpace rest lx.nextLine else lx
    else skipSpace rest (lx.skip 1)

/-- The loop of `lexer_skip_line_comment`: up to the line end. -/
def skipLineComment : Text → Lexer → Lexer
  | [], lx => lx
  | c :: rest, lx => if c = '\n' then lx else skipLineComment rest (lx.skip 1)

/-- The loop of `lexer_skip_block_comment`, with the depth of open comments;
a depth other than zero at the end is an unterminated comment. -/
def skipBlockComment : Nat → Text → Lexer → Nat × Lexer
  | 0, _, lx => (0, lx)
  | depth, [], lx => (depth, lx)
  | depth + 1, [c], lx => (depth + 1, if c = '\n' then lx.nextLine else lx.skip 1)
  | depth + 1, c :: d :: rest, lx =>
    if c = '/' ∧ d = '*' then skipBlockComment (depth + 2) rest (lx.skip 2)
    else if c = '*' ∧ d = '/' then skipBlockComment depth rest (lx.skip 2)
    else if c = '\n' then skipBlockComment (depth + 1) (d :: rest) lx.nextLine
    else skipBlockComment (depth + 1) (d :: rest) (lx.skip 1)

-- ---
-- Operators and punctuation
-- ---

/-- The switch of `lexer_next_token` and the three minus tokens after it: type
and length of the operator that starts with `c`, the longest that fits what
follows. -/
def operatorAt (c : Char) (after : Text) : Option (TokenType × Nat) :=
  let next := after[0]?
  match c with
  | ':' => some (.colon, 1)
  | ';' => some (.semicolon, 1)
  | ',' => some (.comma, 1)
  | '=' => if next = some '=' then some (.equalsEquals, 2) else some (.equals, 1)
  | '!' => if next = some '=' then some (.notEquals, 2) else some (.not, 1)
  | '<' =>
    if next = some '=' then some (.lessEquals, 2)
    else if next = some '<' then
      if after[1]? = some '=' then some (.lshiftEquals, 3) else some (.lshift, 2)
    else some (.lessThan, 1)
  | '>' =>
    if next = some '=' then some (.greaterEquals, 2)
    else if next = some '>' then
      if after[1]? = some '=' then some (.rshiftEquals, 3) else some (.rshift, 2)
    else some (.greaterThan, 1)
  | '(' => some (.lparen, 1)
  | ')' => some (.rparen, 1)
  | '{' => some (.lbrace, 1)
  | '}' => some (.rbrace, 1)
  | '[' => some (.lbracket, 1)
  | ']' => some (.rbracket, 1)
  | '+' => if next = some '=' then some (.plusEquals, 2) else some (.plus, 1)
  | '*' => if next = some '=' then some (.starEquals, 2) else some (.multiply, 1)
  | '&' =>
    if next = some '&' then some (.andAnd, 2)
    else if next = some '=' then some (.ampEquals, 2) else some (.ampersand, 1)
  | '|' =>
    if next = some '|' then some (.orOr, 2)
    else if next = some '=' then some (.pipeEquals, 2) else some (.pipe, 1)
  | '^' => if next = some '=' then some (.caretEquals, 2) else some (.caret, 1)
  | '~' => some (.tilde, 1)
  | '/' => if next = some '=' then some (.slashEquals, 2) else some (.divide, 1)
  | '%' => if next = some '=' then some (.percentEquals, 2) else some (.percent, 1)
  | '.' => some (.dot, 1)
  | '-' =>
    if next = some '>' then some (.arrow, 2)
    else if next = some '=' then some (.minusEquals, 2) else some (.minus, 1)
  | _ => none

/-- What a token does to `continuation_depth`. -/
def depthAfter : TokenType → Nat → Nat
  | .lparen, depth | .lbracket, depth => depth + 1
  | .rparen, depth | .rbracket, depth => depth - 1
  | _, depth => depth

-- ---
-- Literals
-- ---

/-- The token of the `n` characters at `lx` (a value of its own), and the lexer
behind it. -/
def numberToken (lx : Lexer) (n : Nat) : Token × Lexer :=
  ({ type := .number, value := some (lx.rest.take n), lexemeLength := n, line := lx.line,
     column := lx.column },
   lx.skip n)

/-- A literal whose two-character radix mark stands at `lx`. -/
def lexRadixNumber (lx : Lexer) (digit : Char → Bool) (message : String) : Token × Lexer :=
  match (lx.rest.drop 2).takeWhile digit with
  | [] => (errorToken lx message, lx.skip 2)
  | digits => numberToken lx (2 + digits.length)

/-- `lexer_lex_number`. -/
def lexNumber (lx : Lexer) : Token × Lexer :=
  match lx.rest with
  | '0' :: 'x' :: _ | '0' :: 'X' :: _ =>
    lexRadixNumber lx isHexDigit "Invalid hexadecimal literal"
  | '0' :: 'b' :: _ | '0' :: 'B' :: _ =>
    lexRadixNumber lx (fun c => c = '0' || c = '1') "Invalid binary literal"
  | text => numberToken lx (text.takeWhile fun c => isDigit c || c = '.').length

def charEscape (c : Char) : Option Nat :=
  if c = 'n' then some 10
  else if c = 't' then some 9
  else if c = 'r' then some 13
  else if c = backslash then some 92
  else if c = apostrophe then some 39
  else if c = '0' then some 0
  else none

/-- The end of `lexer_lex_char_literal`: the closing quote, at `lx`, of the
literal that started at `start`. -/
def closeCharLiteral (start : Lexer) (value : Nat) (lx : Lexer) : Token × Lexer :=
  match lx.rest with
  | c :: _ =>
    if c = apostrophe then
      ({ type := .number, value := some (Nat.toDigits 10 value),
         lexemeLength := (lx.skip 1).position - start.position,
         line := start.line, column := start.column },
       lx.skip 1)
    else (errorToken start "Character literal must contain exactly one character", lx)
  | [] => (errorToken start "Character literal must contain exactly one character", lx)

/-- `lexer_lex_char_literal`. -/
def lexCharLiteral (lx : Lexer) : Token × Lexer :=
  let body := lx.skip 1
  match body.rest with
  | [] => (errorToken lx "Unterminated character literal", body)
  | [c] =>
    if c = backslash then (errorToken lx "Unterminated character literal", body.skip 1)
    else if c = '\n' || c = carriageReturn then
      (errorToken lx "Unterminated character literal", body)
    else closeCharLiteral lx c.toNat (body.skip 1)
  | c :: e :: _ =>
    if c = backslash then
      match charEscape e with
      | none => (errorToken lx "Invalid character escape sequence", body.skip 1)
      | some value => closeCharLiteral lx value (body.skip 2)
    else if c = '\n' || c = carriageReturn then
      (errorToken lx "Unterminated character literal", body)
    else closeCharLiteral lx c.toNat (body.skip 1)

def stringEscape (c : Char) : Text :=
  if c = 'n' then ['\n']
  else if c = 't' then [tab]
  else if c = 'r' then [carriageReturn]
  else if c = backslash then [backslash]
  else if c = doubleQuote then [doubleQuote]
  else if c = '0' then [Char.ofNat 0]
  else [backslash, c]

/-- The loop of `lexer_lex_string_literal`: the decoded text and the number of
characters read, up to the closing quote or the end. A backslash that ends the
text stands for itself. -/
def stringBody : Text → Text × Nat
  | [] => ([], 0)
  | [c] => if c = doubleQuote then ([], 0) else ([c], 1)
  | c :: e :: rest =>
    if c = doubleQuote then ([], 0)
    else if c = backslash then
      let (decoded, used) := stringBody rest
      (stringEscape e ++ decoded, used + 2)
    else
      let (decoded, used) := stringBody (e :: rest)
      (c :: decoded, used + 1)

/-- `lexer_lex_string_literal`. -/
def lexStringLiteral (lx : Lexer) : Token × Lexer :=
  let (decoded, used) := stringBody (lx.skip 1).rest
  let close := lx.skip (1 + used)
  match close.rest with
  | [] => (errorToken lx "Unterminated string literal", close)
  | _ :: _ =>
    ({ type := .string, value := some decoded, lexemeLength := decoded.length,
       line := lx.line, column := lx.column },
     close.skip 1)

-- ---
-- Words
-- ---

/-- The keywords, compared with `strcmp`. -/
def keywords : List (Text × TokenType) :=
  [("import".toList, .kwImport), ("import_str".toList, .kwImportStr),
   ("extern".toList, .kwExtern), ("export".toList, .kwExport), ("var".toList, .kwVar),
   ("function".toList, .kwFunction), ("struct".toList, .kwStruct), ("enum".toList, .kwEnum),
   ("trait".toList, .kwTrait), ("impl".toList, .kwImpl), ("where".toList, .kwWhere),
   ("method".toList, .kwMethod), ("return".toList, .kwReturn), ("if".toList, .kwIf),
   ("else".toList, .kwElse), ("while".toList, .kwWhile), ("for".toList, .kwFor),
   ("switch".toList, .kwSwitch), ("case".toList, .kwCase), ("default".toList, .kwDefault),
   ("break".toList, .kwBreak), ("continue".toList, .kwContinue), ("defer".toList, .kwDefer),
   ("errdefer".toList, .kwErrdefer), ("asm".toList, .kwAsm), ("this".toList, .kwThis),
   ("new".toList, .kwNew), ("fn".toList, .kwFn), ("match".toList, .kwMatch),
   ("int8".toList, .int8), ("int16".toList, .int16), ("int32".toList, .int32),
   ("int64".toList, .int64), ("uint8".toList, .uint8), ("uint16".toList, .uint16),
   ("uint32".toList, .uint32), ("uint64".toList, .uint64), ("float32".toList, .float32),
   ("float64".toList, .float64), ("string".toList, .stringType)]

/-- The mnemonics and registers, compared with `strcasecmp`. -/
def assemblyWords : List (Text × TokenType) :=
  [("mov".toList, .mnemonic .mov), ("add".toList, .mnemonic .add),
   ("sub".toList, .mnemonic .sub), ("mul".toList, .mnemonic .mul),
   ("div".toList, .mnemonic .div), ("imul".toList, .mnemonic .imul),
   ("idiv".toList, .mnemonic .idiv), ("inc".toList, .mnemonic .inc),
   ("dec".toList, .mnemonic .dec), ("cmp".toList, .mnemonic .cmp),
   ("jmp".toList, .mnemonic .jmp), ("je".toList, .mnemonic .je),
   ("jne".toList, .mnemonic .jne), ("jl".toList, .mnemonic .jl),
   ("jle".toList, .mnemonic .jle), ("jg".toList, .mnemonic .jg),
   ("jge".toList, .mnemonic .jge), ("call".toList, .mnemonic .call),
   ("ret".toList, .mnemonic .ret), ("push".toList, .mnemonic .push),
   ("pop".toList, .mnemonic .pop), ("lea".toList, .mnemonic .lea),
   ("nop".toList, .mnemonic .nop), ("int".toList, .mnemonic .int),
   ("syscall".toList, .mnemonic .syscall),
   ("eax".toList, .register .eax), ("ebx".toList, .register .ebx),
   ("ecx".toList, .register .ecx), ("edx".toList, .register .edx),
   ("esi".toList, .register .esi), ("edi".toList, .register .edi),
   ("esp".toList, .register .esp), ("ebp".toList, .register .ebp),
   ("rax".toList, .register .rax), ("rbx".toList, .register .rbx),
   ("rcx".toList, .register .rcx), ("rdx".toList, .register .rdx),
   ("rsi".toList, .register .rsi), ("rdi".toList, .register .rdi),
   ("rsp".toList, .register .rsp), ("rbp".toList, .register .rbp),
   ("r8".toList, .register .r8), ("r9".toList, .register .r9),
   ("r10".toList, .register .r10), ("r11".toList, .register .r11),
   ("r12".toList, .register .r12), ("r13".toList, .register .r13),
   ("r14".toList, .register .r14), ("r15".toList, .register .r15)]

def wordType (word : Text) : TokenType :=
  match keywords.lookup word with
  | some type => type
  | none => (assemblyWords.lookup (word.map Char.toLower)).getD .identifier

/-- `lexer_lex_identifier_or_keyword`. -/
def lexIdentifierOrKeyword (lx : Lexer) : Token × Lexer :=
  let word := lx.rest.takeWhile isWordChar
  ({ type := wordType word, value := some word, isInterned := true,
     lexemeLength := word.length, line := lx.line, column := lx.column },
   lx.skip word.length)

-- ---
-- The next token
-- ---

/-- `lexer_next_token` at the first character `c` of a token, with what follows it. -/
def lexToken (c : Char) (after : Text) (lx : Lexer) : Token × Lexer :=
  match operatorAt c after with
  | some (type, length) =>
    ({ type := type, value := some ((c :: after).take length), isInterned := true,
       lexemeLength := length, line := lx.line, column := lx.column },
     { lx.skip length with continuationDepth := depthAfter type lx.continuationDepth })
  | none =>
    if c = apostrophe then lexCharLiteral lx
    else if isDigit c then lexNumber lx
    else if isWordStart c then lexIdentifierOrKeyword lx
    else if c = doubleQuote then lexStringLiteral lx
    else
      ({ type := .error, value := some ("Unknown character: ".toList ++ [c]),
         lexemeLength := 1, line := lx.line, column := lx.column },
       lx.skip 1)

/-- The body of `lexer_next_token`: a token and the lexer behind it, or the lexer behind a comment,
where `lexer_next_token` calls itself. -/
def nextTokenRound (start : Lexer) : Lexer ⊕ Token × Lexer :=
  let lx := skipSpace start.rest start
  match lx.rest with
  | [] => .inr ({ type := .eof, line := start.line, column := start.column }, lx)
  | c :: after =>
    -- `skipSpace` stops at a line end only where it is a token.
    if c = '\n' then
      .inr ({ type := .newline, lexemeLength := 1, line := start.line, column := start.column },
        lx.nextLine)
    else if c = '/' ∧ after[0]? = some '/' then
      .inl (skipLineComment (after.drop 1) (lx.skip 2))
    else if c = '/' ∧ after[0]? = some '*' then
      match skipBlockComment 1 (after.drop 1) (lx.skip 2) with
      | (0, behind) => .inl behind
      | (_ + 1, behind) => .inr (errorToken lx "Unterminated block comment", behind)
    else .inr (lexToken c after lx)

/-- `lexer_next_token` with its calls counted; `none` if they run out. -/
def nextTokenFrom (calls : Nat) (lx : Lexer) : Option (Token × Lexer) :=
  runLoop nextTokenRound calls lx

/-- `lexer_next_token`: there are fewer comments than characters. -/
def nextToken (lx : Lexer) : Token × Lexer :=
  (nextTokenFrom (lx.rest.length + 1) lx).getD
    ({ type := .eof, line := lx.line, column := lx.column }, lx)

-- ---
-- The lexer only moves on
-- ---

/-- The same text, `n` characters or more further on. -/
structure Ahead (n : Nat) (lx lx' : Lexer) : Prop where
  source : lx'.source = lx.source
  position : lx.position + n ≤ lx'.position

theorem Ahead.refl (lx : Lexer) : Ahead 0 lx lx := ⟨rfl, Nat.le_refl _⟩

variable {n : Nat}

theorem Ahead.trans {m : Nat} {lx₁ lx₂ lx₃ : Lexer} (h : Ahead m lx₁ lx₂) (h' : Ahead n lx₂ lx₃)
    : Ahead (m + n) lx₁ lx₃ :=
  ⟨h'.source.trans h.source, by have := h.position; have := h'.position; omega⟩

variable {lx lx' : Lexer}

theorem Ahead.mono {m : Nat} (h : Ahead n lx lx') (hLe : m ≤ n) :
    Ahead m lx lx' :=
  ⟨h.source, by have := h.position; omega⟩

theorem Ahead.skip (lx : Lexer) (n : Nat) : Ahead n lx (lx.skip n) := ⟨rfl, Nat.le_refl _⟩

theorem Ahead.nextLine (lx : Lexer) : Ahead 1 lx lx.nextLine := ⟨rfl, Nat.le_refl _⟩

theorem Ahead.withDepth (h : Ahead n lx lx') (depth : Nat) :
    Ahead n lx { lx' with continuationDepth := depth } := ⟨h.source, h.position⟩

theorem Ahead.rest_length_lt (h : Ahead 1 lx lx') (hRest : lx.rest ≠ []) :
    lx'.rest.length < lx.rest.length := by
  have hInside : lx.position < lx.source.length := by
    by_contra hOutside
    exact hRest (List.drop_eq_nil_of_le (by omega))
  have := h.position
  rw [Lexer.rest, Lexer.rest, List.length_drop, List.length_drop, h.source]
  omega

theorem Ahead.rest_length_le (h : Ahead 0 lx lx') : lx'.rest.length ≤ lx.rest.length := by
  have := h.position
  rw [Lexer.rest, Lexer.rest, List.length_drop, List.length_drop, h.source]
  omega

theorem skipSpace_ahead (text : Text) (lx : Lexer) : Ahead 0 lx (skipSpace text lx) := by
  induction text generalizing lx with
  | nil => exact .refl lx
  | cons c rest ih =>
    unfold skipSpace
    split_ifs
    · exact .refl lx
    · exact ((Ahead.nextLine lx).trans (ih _)).mono (by omega)
    · exact .refl lx
    · exact ((Ahead.skip lx 1).trans (ih _)).mono (by omega)

theorem skipLineComment_ahead (text : Text) (lx : Lexer) :
    Ahead 0 lx (skipLineComment text lx) := by
  induction text generalizing lx with
  | nil => exact .refl lx
  | cons c rest ih =>
    unfold skipLineComment
    split_ifs
    · exact .refl lx
    · exact ((Ahead.skip lx 1).trans (ih _)).mono (by omega)

theorem skipBlockComment_ahead (depth : Nat) (text : Text) (lx : Lexer) :
    Ahead 0 lx (skipBlockComment depth text lx).2 := by
  induction depth, text, lx using skipBlockComment.induct with
  | case1 text lx =>
    rw [skipBlockComment]
    exact .refl lx
  | case2 depth lx hDepth =>
    cases depth with
    | zero => exact absurd rfl hDepth
    | succ depth => exact .refl lx
  | case3 depth c lx =>
    rw [skipBlockComment]
    split_ifs
    · exact (Ahead.nextLine _).mono (by omega)
    · exact (Ahead.skip _ 1).mono (by omega)
  | case4 depth c d rest lx hOpen ih =>
    rw [skipBlockComment, if_pos hOpen]
    exact ((Ahead.skip lx 2).trans ih).mono (by omega)
  | case5 depth c d rest lx hOpen hClose ih =>
    rw [skipBlockComment, if_neg hOpen, if_pos hClose]
    exact ((Ahead.skip lx 2).trans ih).mono (by omega)
  | case6 depth d rest lx hOpen hClose ih =>
    exact ((Ahead.nextLine lx).trans ih).mono (by omega)
  | case7 depth c d rest lx hOpen hClose hLine ih =>
    rw [skipBlockComment, if_neg hOpen, if_neg hClose, if_neg hLine]
    exact ((Ahead.skip lx 1).trans ih).mono (by omega)

variable {c : Char} {after : Text}

theorem operatorAt_length {type : TokenType} (h : operatorAt c after = some (type, n))
    : 1 ≤ n ∧ type ≠ .eof := by
  unfold operatorAt at h
  dsimp only at h
  split at h <;> (repeat' split at h) <;> cases h <;> exact ⟨by decide, by decide⟩

theorem lexRadixNumber_ahead (lx : Lexer) (digit : Char → Bool) (message : String) :
    Ahead 1 lx (lexRadixNumber lx digit message).2 := by
  unfold lexRadixNumber
  split
  · exact (Ahead.skip lx 2).mono (by omega)
  · exact (Ahead.skip lx _).mono (by omega)

theorem lexNumber_ahead (hRest : lx.rest = c :: after) (hDigit : isDigit c = true)
    : Ahead 1 lx (lexNumber lx).2 := by
  unfold lexNumber
  rw [hRest]
  split
  · exact lexRadixNumber_ahead ..
  · exact lexRadixNumber_ahead ..
  · exact lexRadixNumber_ahead ..
  · exact lexRadixNumber_ahead ..
  · refine (Ahead.skip lx _).mono ?_
    rw [List.takeWhile_cons_of_pos (by simp [hDigit])]
    simp

theorem closeCharLiteral_ahead (start : Lexer) (value : Nat) (lx : Lexer) :
    Ahead 0 lx (closeCharLiteral start value lx).2 := by
  unfold closeCharLiteral
  split
  · split_ifs
    · exact (Ahead.skip lx 1).mono (by omega)
    · exact .refl lx
  · exact .refl lx

theorem lexCharLiteral_ahead (lx : Lexer) : Ahead 1 lx (lexCharLiteral lx).2 := by
  unfold lexCharLiteral
  have hBody : Ahead 1 lx (lx.skip 1) := .skip lx 1
  have hFurther : ∀ n start value,
      Ahead 1 lx (closeCharLiteral start value ((lx.skip 1).skip n)).2 := fun n start value =>
    ((hBody.trans (.skip _ n)).trans (closeCharLiteral_ahead start value _)).mono (by omega)
  simp only
  split
  · exact hBody
  · split_ifs
    · exact (hBody.trans (.skip _ 1)).mono (by omega)
    · exact hBody
    · exact hFurther ..
  · split_ifs
    · split
      · exact (hBody.trans (.skip _ 1)).mono (by omega)
      · exact hFurther ..
    · exact hBody
    · exact hFurther ..

theorem lexStringLiteral_ahead (lx : Lexer) : Ahead 1 lx (lexStringLiteral lx).2 := by
  unfold lexStringLiteral
  simp only
  split
  · exact (Ahead.skip lx _).mono (by omega)
  · exact ((Ahead.skip lx _).trans (.skip _ 1)).mono (by omega)

theorem lexToken_ahead (hRest : lx.rest = c :: after) : Ahead 1 lx (lexToken c after lx).2 := by
  unfold lexToken
  split
  · next type n hOp =>
    exact ((Ahead.skip lx n).withDepth _).mono (operatorAt_length hOp).1
  · split_ifs with hQuote hDigit hWord hString
    · exact lexCharLiteral_ahead lx
    · exact lexNumber_ahead hRest hDigit
    · refine (Ahead.skip lx _).mono ?_
      rw [hRest, List.takeWhile_cons_of_pos]
      · simp
      · simp only [isWordStart, isWordChar, Bool.or_eq_true, Char.isAlphanum] at hWord ⊢
        exact hWord.imp_left .inl
    · exact lexStringLiteral_ahead lx
    · exact .skip lx 1

/-- What one call can do: it takes characters, or it is at the end. -/
theorem nextTokenRound_ahead (lx : Lexer) :
    (nextTokenRound lx).elim (fun next => Ahead 1 lx next ∧ lx.rest ≠ []) fun read =>
      Ahead 0 lx read.2 ∧ (read.1.type ≠ .eof → Ahead 1 lx read.2 ∧ lx.rest ≠ []) := by
  have hSpace : Ahead 0 lx (skipSpace lx.rest lx) := skipSpace_ahead _ lx
  unfold nextTokenRound
  dsimp only
  split
  · exact ⟨hSpace, fun hType => absurd rfl hType⟩
  · next c after hRest =>
    have hInside : lx.rest ≠ [] := by
      have := hSpace.rest_length_le
      intro hEmpty
      rw [hRest, hEmpty] at this
      simp at this
    have hToken : ∀ {read : Token × Lexer}, Ahead 1 (skipSpace lx.rest lx) read.2 →
        Ahead 0 lx read.2 ∧ (read.1.type ≠ .eof → Ahead 1 lx read.2 ∧ lx.rest ≠ []) := fun h =>
      ⟨(hSpace.trans h).mono (by omega), fun _ => ⟨(hSpace.trans h).mono (by omega), hInside⟩⟩
    have hComment : ∀ {lx'}, Ahead 0 ((skipSpace lx.rest lx).skip 2) lx' →
        Ahead 1 lx lx' ∧ lx.rest ≠ [] := fun h =>
      ⟨((hSpace.trans (.skip _ 2)).trans h).mono (by omega), hInside⟩
    split_ifs
    · exact hToken (.nextLine _)
    · exact hComment (skipLineComment_ahead _ _)
    · have hBlock := skipBlockComment_ahead 1 (after.drop 1) ((skipSpace lx.rest lx).skip 2)
      split
      · next behind hEnd =>
        rw [hEnd] at hBlock
        exact hComment hBlock
      · next behind hEnd =>
        rw [hEnd] at hBlock
        exact hToken (((Ahead.skip _ 2).trans hBlock).mono (by omega))
    · exact hToken (lexToken_ahead hRest)

theorem nextTokenRound_next {next : Lexer} (h : nextTokenRound lx = .inl next) :
    Ahead 1 lx next ∧ lx.rest ≠ [] := by
  have hRound := nextTokenRound_ahead lx
  rwa [h] at hRound

theorem nextTokenRound_read {read : Token × Lexer} (h : nextTokenRound lx = .inr read) :
    Ahead 0 lx read.2 ∧ (read.1.type ≠ .eof → Ahead 1 lx read.2 ∧ lx.rest ≠ []) := by
  have hRound := nextTokenRound_ahead lx
  rwa [h] at hRound

/-- **`lexer_next_token` returns** from every state of the lexer: each comment in front of a token
takes characters of the text, so that there are fewer calls than characters. -/
theorem nextTokenFrom_returns (lx : Lexer) (extra : Nat) :
    nextTokenFrom (lx.rest.length + 1 + extra) lx = some (nextToken lx) := by
  obtain ⟨read, hRead⟩ := runLoop_returns (fun lx : Lexer => lx.rest.length)
    (fun _ _ h => (nextTokenRound_next h).1.rest_length_lt (nextTokenRound_next h).2) lx
  have hNext : nextToken lx = read := congrArg (Option.getD · _) (hRead 0)
  rw [hNext]
  exact hRead extra

theorem nextToken_eq_some (lx : Lexer) :
    nextTokenFrom (lx.rest.length + 1) lx = some (nextToken lx) := nextTokenFrom_returns lx 0

theorem nextToken_moves (lx : Lexer) : Ahead 0 lx (nextToken lx).2 ∧
      ((nextToken lx).1.type ≠ .eof → Ahead 1 lx (nextToken lx).2 ∧ lx.rest ≠ []) := by
  refine runLoop_invariant (fun lx' => lx' = lx ∨ Ahead 1 lx lx' ∧ lx.rest ≠ [])
    (fun read => Ahead 0 lx read.2 ∧ (read.1.type ≠ .eof → Ahead 1 lx read.2 ∧ lx.rest ≠ []))
    ?_ ?_ (.inl rfl) (nextToken_eq_some lx)
  · rintro lx' next hFrom hRound
    obtain ⟨hAhead, hInside⟩ := nextTokenRound_next hRound
    rcases hFrom with rfl | ⟨hFrom, hRest⟩
    · exact .inr ⟨hAhead, hInside⟩
    · exact .inr ⟨(hFrom.trans hAhead).mono (by omega), hRest⟩
  · rintro lx' read hFrom hRound
    have hRead := nextTokenRound_read hRound
    rcases hFrom with rfl | ⟨hFrom, hRest⟩
    · exact hRead
    · exact ⟨(hFrom.trans hRead.1).mono (by omega),
        fun _ => ⟨(hFrom.trans hRead.1).mono (by omega), hRest⟩⟩

theorem nextToken_ahead (lx : Lexer) : Ahead 0 lx (nextToken lx).2 := (nextToken_moves lx).1

theorem nextToken_rest_length_lt (h : (nextToken lx).1.type ≠ .eof) :
    (nextToken lx).2.rest.length < lx.rest.length :=
  have hMore := (nextToken_moves lx).2 h
  hMore.1.rest_length_lt hMore.2

/-- Without a comment in front of the token there is one call. -/
theorem nextToken_of_round {read : Token × Lexer} (h : nextTokenRound lx = .inr read) :
    nextToken lx = read := by
  rw [nextToken, nextTokenFrom, runLoop, h]
  rfl

end Mettle.Lexing
