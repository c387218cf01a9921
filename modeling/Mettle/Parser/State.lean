import Mettle.Lexing.Position
import Mettle.Lib.Attempt

/-!
# Mettle — the parser's state

The token window, the error flags and the error reporter of `parser.c`, and the
snapshot that the two guesses of the expression parser take of them
(`parser_save_state`).

The reporter is a pointer in the source: a snapshot keeps the pointer and not
what it points to. So the state has both `reporting`, whether the pointer is
set, and `reporter`, the errors recorded so far. File names and source excerpts
of a report are left out; they are fixed while a file is parsed.
-/

namespace Mettle.Parser

open Lexing Lib

-- ---
-- Error reports
-- ---

/-- The parts that report. -/
inductive ErrorType where
  | lexical | syntactic
deriving DecidableEq

/-- `ErrorReport`: where, how long, and what. -/
structure ErrorReport where
  type : ErrorType
  line : Nat
  column : Nat
  length : Nat
  message : Text
  suggestion : Option Text
deriving DecidableEq

/-- The reports, up to a number. -/
structure ErrorReporter where
  errors : List ErrorReport := []
  maxErrors : Nat := 100
deriving DecidableEq

def ErrorReporter.isFull (reporter : ErrorReporter) : Bool :=
  reporter.maxErrors ≤ reporter.errors.length

/-- `error_reporter_add_report`; the array of reports always grows. -/
def ErrorReporter.addReport (reporter : ErrorReporter) (report : ErrorReport) :
    ErrorReporter :=
  if reporter.isFull then reporter
  else
    { reporter with
      errors := reporter.errors ++ [{ report with length := max report.length 1 }] }

/-- `error_reporter_suggest_for_token`. -/
def suggestForToken (token : Text) : Option Text :=
  [("fucntion".toList, "did you mean 'function'?".toList),
   ("retrun".toList, "did you mean 'return'?".toList),
   ("strcut".toList, "did you mean 'struct'?".toList),
   ("methdo".toList, "did you mean 'method'?".toList),
   ("whiel".toList, "did you mean 'while'?".toList),
   ("fi".toList, "did you mean 'if'?".toList),
   ("itn32".toList, "did you mean 'int32'?".toList),
   ("int23".toList, "did you mean 'int32'?".toList),
   ("stirng".toList, "did you mean 'string'?".toList),
   ("flaot32".toList, "did you mean 'float32'?".toList),
   ("flaot64".toList, "did you mean 'float64'?".toList)].lookup token

-- ---
-- The state
-- ---

/-- `Parser`. -/
structure State where
  lexer : Lexer
  currentToken : Token
  peekToken : Token
  hasError : Bool := false
  hadError : Bool := false
  errorCount : Nat := 0
  errorMessage : Option Text := none
  reporting : Bool
  reporter : ErrorReporter
deriving DecidableEq

namespace State

def raise (p : State) (message : Text) (report : ErrorReport) : State :=
  { p with
    hasError := true
    hadError := true
    errorCount := p.errorCount + 1
    errorMessage := some message
    reporter := if p.reporting then p.reporter.addReport report else p.reporter }

/-- `parser_report_lexer_token_error`, for a token that is a lexical error. -/
def reportLexerTokenError (p : State) (token : Token) : State :=
  let text := match token.value with
    | some (c :: rest) => c :: rest
    | _ => "Invalid token".toList
  let message := "Lexical error: ".toList ++ text
  p.raise message
    { type := .lexical, line := token.line, column := token.column, length := 1,
      message := message, suggestion := none }

/-- `parser_advance`. -/
def advance (p : State) : State :=
  if p.currentToken.type = .eof then p
  else
    let next := nextToken p.lexer
    let q := { p with currentToken := p.peekToken, peekToken := next.1, lexer := next.2 }
    if q.currentToken.type = .error then q.reportLexerTokenError q.currentToken else q

def spanLength (token : Token) : Nat :=
  if 0 < token.lexemeLength then token.lexemeLength
  else match token.value with
    | some value => if cString value = [] then 1 else (cString value).length
    | none => 1

/-- `parser_set_error_with_suggestion`: without a suggestion, the one for a
misspelt keyword at the current token. -/
def setErrorWithSuggestion (p : State) (message : Text) (suggestion : Option Text) : State :=
  p.raise message
    { type := .syntactic, line := p.currentToken.line, column := p.currentToken.column,
      length := spanLength p.currentToken, message := message,
      suggestion := suggestion.or (p.currentToken.value.bind fun v => suggestForToken (cString v)) }

/-- `parser_set_error`. -/
def setError (p : State) (message : String) : State :=
  p.setErrorWithSuggestion message.toList none

end State

/-- `parser_create_with_error_reporter`. -/
def State.create (lexer : Lexer) (reporter : Option ErrorReporter) : State :=
  let first := nextToken lexer
  let second := nextToken first.2
  let p : State :=
    { lexer := second.2, currentToken := first.1, peekToken := second.1,
      reporting := reporter.isSome, reporter := reporter.getD {} }
  if p.currentToken.type = .error then p.reportLexerTokenError p.currentToken
  else if p.peekToken.type = .error then p.reportLexerTokenError p.peekToken
  else p

def stateOf (source : String) : State := .create (.create source.toList) (some {})

-- ---
-- Token classes
-- ---

/-- `parser_is_identifier_like`. -/
def isIdentifierLike : TokenType → Bool
  | .identifier | .mnemonic _ | .register _ => true
  | _ => false

/-- `parser_is_type_keyword`. -/
def isTypeKeyword : TokenType → Bool
  | .int8 | .int16 | .int32 | .int64 | .uint8 | .uint16 | .uint32 | .uint64
  | .float32 | .float64 | .stringType => true
  | _ => false

/-- The token in messages. -/
def tokenTypeToString : TokenType → String
  | .eof => "end of file"
  | .identifier => "identifier"
  | .number => "number"
  | .string => "string"
  | .kwImport => "'import'"
  | .kwImportStr => "'import_str'"
  | .kwExtern => "'extern'"
  | .kwExport => "'export'"
  | .kwVar => "'var'"
  | .kwFunction => "'function'"
  | .kwStruct => "'struct'"
  | .kwMethod => "'method'"
  | .kwReturn => "'return'"
  | .kwIf => "'if'"
  | .kwElse => "'else'"
  | .kwWhile => "'while'"
  | .kwFor => "'for'"
  | .kwSwitch => "'switch'"
  | .kwCase => "'case'"
  | .kwDefault => "'default'"
  | .kwBreak => "'break'"
  | .kwContinue => "'continue'"
  | .kwDefer => "'defer'"
  | .kwErrdefer => "'errdefer'"
  | .kwAsm => "'asm'"
  | .kwThis => "'this'"
  | .kwNew => "'new'"
  | .colon => "':'"
  | .semicolon => "';'"
  | .comma => "','"
  | .equals => "'='"
  | .arrow => "'->'"
  | .lparen => "'('"
  | .rparen => "')'"
  | .lbrace => "'\x7b'"
  | .rbrace => "'\x7d'"
  | .lbracket => "'['"
  | .rbracket => "']'"
  | .plus => "'+'"
  | .minus => "'-'"
  | .multiply => "'*'"
  | .ampersand => "'&'"
  | .pipe => "'|'"
  | .caret => "'^'"
  | .lshift => "'<<'"
  | .rshift => "'>>'"
  | .tilde => "'~'"
  | .andAnd => "'&&'"
  | .orOr => "'||'"
  | .divide => "'/'"
  | .percent => "'%'"
  | .dot => "'.'"
  | .newline => "newline"
  | .error => "lexical error"
  | _ => "unknown token"

/-- The suggestion of `parser_expect`. -/
def expectSuggestion (expected : TokenType) (actual : TokenType) : Option Text :=
  if expected = .semicolon then some "add a semicolon ';' to end the statement".toList
  else if expected = .rparen ∧ actual = .comma then
    some "check if you have an extra comma in the parameter list".toList
  else if expected = .rbrace ∧ actual = .eof then
    some "add a closing brace '\x7d' to match the opening brace".toList
  else if expected = .colon ∧ actual = .equals then
    some "use ':' for type annotations, '=' for assignments".toList
  else none

-- ---
-- Parser actions
-- ---

abbrev ParseM := Attempt State

/-- `parser_advance`. -/
def advance : ParseM Unit := .update State.advance

/-- The type of the current token. -/
def currentType : ParseM TokenType := fun p => some (some p.currentToken.type, p)

def currentValue : ParseM Text := fun p =>
  some (some (cString (p.currentToken.value.getD [])), p)

/-- `parser->has_error`. -/
def errorFlag : ParseM Bool := fun p => some (some p.hasError, p)

/-- `parser_set_error`. -/
def setError (message : String) : ParseM Unit := .update fun p => p.setError message

/-- `parser_set_error`, and null. -/
def failWith {α : Type} (message : String) : ParseM α := do
  setError message
  .null

/-- What `parser_expect` does at another token. -/
def State.expectError (p : State) (type : TokenType) : State :=
  p.setErrorWithSuggestion
    ("Expected ".toList ++ (tokenTypeToString type).toList ++ ", found ".toList ++
      (tokenTypeToString p.currentToken.type).toList)
    (expectSuggestion type p.currentToken.type)

/-- `parser_expect`, where the caller returns null when it returns 0. -/
def expect (type : TokenType) : ParseM Unit := do
  let current ← currentType
  if current = type then advance
  else
    .update fun p => p.expectError type
    .null

-- ---
-- Snapshots
-- ---

/-- `ParserSavedState`. -/
structure SavedState where
  lexerPosition : Nat
  lexerLine : Nat
  lexerColumn : Nat
  lexerContinuationDepth : Nat
  currentToken : Token
  peekToken : Token
  hasError : Bool
  hadError : Bool
  errorCount : Nat
  errorMessage : Option Text
  reporting : Bool

/-- `parser_save_state`. -/
def State.saveState (p : State) : SavedState :=
  { lexerPosition := p.lexer.position
    lexerLine := p.lexer.line
    lexerColumn := p.lexer.column
    lexerContinuationDepth := p.lexer.continuationDepth
    currentToken := p.currentToken.clone
    peekToken := p.peekToken.clone
    hasError := p.hasError
    hadError := p.hadError
    errorCount := p.errorCount
    errorMessage := p.errorMessage
    reporting := p.reporting }

/-- `parser_restore_state`. -/
def State.restoreState (p : State) (saved : SavedState) : State :=
  { p with
    lexer :=
      { p.lexer with
        position := saved.lexerPosition
        line := saved.lexerLine
        column := saved.lexerColumn
        continuationDepth := saved.lexerContinuationDepth }
    currentToken := saved.currentToken.clone
    peekToken := saved.peekToken.clone
    hasError := saved.hasError
    hadError := saved.hadError
    errorCount := saved.errorCount
    reporting := saved.reporting
    errorMessage := saved.errorMessage }

/-- Both tokens of the window survive being copied. -/
def State.TokensCopied (p : State) : Prop :=
  p.currentToken.clone = p.currentToken ∧ p.peekToken.clone = p.peekToken

instance (p : State) : Decidable p.TokensCopied := by
  unfold State.TokensCopied
  infer_instance

theorem cString_cString (t : Text) : cString (cString t) = cString t := by
  rw [cString, cString, List.takeWhile_idem]

theorem clone_clone (token : Token) : token.clone.clone = token.clone := by
  unfold Token.clone
  by_cases hShared : token.isInterned = true
  · simp [hShared]
  · simp [hShared, Option.map_map, Function.comp_def, cString_cString]

theorem restoreState_saveState {p q : State} (hSource : q.lexer.source = p.lexer.source) :
    q.restoreState p.saveState =
      { p with
        currentToken := p.currentToken.clone
        peekToken := p.peekToken.clone
        reporter := q.reporter } := by
  simp only [State.restoreState, State.saveState, clone_clone, hSource]

variable {p q : State}

/-- A restored snapshot is the state before exactly where the copies are
faithful and nothing was reported meanwhile. -/
theorem restoreState_eq_iff (hSource : q.lexer.source = p.lexer.source) :
    q.restoreState p.saveState = p ↔ p.TokensCopied ∧ q.reporter = p.reporter := by
  rw [restoreState_saveState hSource, State.TokensCopied]
  constructor
  · intro h
    have hCurrent := congrArg State.currentToken h
    have hPeek := congrArg State.peekToken h
    have hReporter := congrArg (fun s : State => State.reporter s) h
    exact ⟨⟨hCurrent, hPeek⟩, hReporter⟩
  · rintro ⟨⟨hCurrent, hPeek⟩, hReporter⟩
    rw [hCurrent, hPeek, hReporter]

-- ---
-- What a step leaves of the errors
-- ---

/-- Errors since `p`: they set the flag and are counted, and are recorded exactly
where a reporter is set and not full. -/
structure Noted (p q : State) : Prop where
  reporting : q.reporting = p.reporting
  flag : p.errorCount < q.errorCount → q.hasError = true
  keeps : q.errorCount = p.errorCount → q.hasError = p.hasError
  count : p.errorCount ≤ q.errorCount
  maxErrors : q.reporter.maxErrors = p.reporter.maxErrors
  length : p.reporter.errors.length ≤ q.reporter.errors.length
  quiet : q.errorCount = p.errorCount → q.reporter = p.reporter
  silent : p.reporting = false ∨ p.reporter.isFull = true → q.reporter = p.reporter
  loud : p.errorCount < q.errorCount → p.reporting = true → p.reporter.isFull = false →
    p.reporter.errors.length < q.reporter.errors.length

theorem Noted.refl (p : State) : Noted p p where
  reporting := rfl
  flag h := absurd h (Nat.lt_irrefl _)
  keeps _ := rfl
  count := Nat.le_refl _
  maxErrors := rfl
  length := Nat.le_refl _
  quiet _ := rfl
  silent _ := rfl
  loud h := absurd h (Nat.lt_irrefl _)

theorem Noted.trans {r : State} (h : Noted p q) (h' : Noted q r) : Noted p r where
  reporting := h'.reporting.trans h.reporting
  flag hCount := by
    rcases Nat.lt_or_ge q.errorCount r.errorCount with hNext | hNext
    · exact h'.flag hNext
    · have hSame := Nat.le_antisymm hNext h'.count
      rw [h'.keeps hSame]
      exact h.flag (by omega)
  keeps hCount := by
    have hFirst : q.errorCount = p.errorCount := by
      have := h.count
      have := h'.count
      omega
    rw [h'.keeps (hCount.trans hFirst.symm), h.keeps hFirst]
  count := Nat.le_trans h.count h'.count
  maxErrors := h'.maxErrors.trans h.maxErrors
  length := Nat.le_trans h.length h'.length
  quiet hCount := by
    have hFirst : q.errorCount = p.errorCount := by
      have := h.count
      have := h'.count
      omega
    rw [h'.quiet (hCount.trans hFirst.symm), h.quiet hFirst]
  silent hSilent := by
    have hFirst := h.silent hSilent
    rw [h'.silent (by rw [h.reporting, hFirst]; exact hSilent), hFirst]
  loud hCount hReporting hRoom := by
    rcases Nat.lt_or_ge p.errorCount q.errorCount with hFirst | hFirst
    · exact Nat.lt_of_lt_of_le (h.loud hFirst hReporting hRoom) h'.length
    · have hSame := h.quiet (Nat.le_antisymm hFirst h.count)
      rw [← hSame]
      exact h'.loud (by omega) (h.reporting.trans hReporting) (by rw [hSame]; exact hRoom)

theorem Noted.reporter_eq_iff (h : Noted p q) (hMore : p.errorCount < q.errorCount) :
    q.reporter = p.reporter ↔ p.reporting = false ∨ p.reporter.isFull = true := by
  constructor
  · intro hSame
    by_contra hLoud
    rw [not_or, Bool.not_eq_false, Bool.not_eq_true] at hLoud
    have hLonger := h.loud hMore hLoud.1 hLoud.2
    rw [hSame] at hLonger
    exact Nat.lt_irrefl _ hLonger
  · exact h.silent

theorem noted_trans (p q r : State) (h : Noted p q) (h' : Noted q r) : Noted p r := h.trans h'

theorem noted_raise (p : State) (message : Text) (report : ErrorReport) :
    Noted p (p.raise message report) ∧ p.errorCount < (p.raise message report).errorCount := by
  refine ⟨⟨rfl, fun _ => rfl, fun h => absurd h (Nat.succ_ne_self _), Nat.le_succ _, ?_, ?_,
    fun h => absurd h (Nat.succ_ne_self _), ?_, ?_⟩, Nat.lt_succ_self _⟩
  all_goals
    by_cases hReporting : p.reporting = true <;> by_cases hFull : p.reporter.isFull = true <;>
      simp [State.raise, ErrorReporter.addReport, hReporting, hFull]

theorem noted_advance (p : State) : Noted p p.advance := by
  unfold State.advance
  dsimp only
  split_ifs
  · exact .refl p
  · refine Noted.trans ?_ (noted_raise _ _ _).1
    exact ⟨rfl, fun h => absurd h (Nat.lt_irrefl _), fun _ => rfl, Nat.le_refl _, rfl,
      Nat.le_refl _, fun _ => rfl, fun _ => rfl, fun h => absurd h (Nat.lt_irrefl _)⟩
  · exact ⟨rfl, fun h => absurd h (Nat.lt_irrefl _), fun _ => rfl, Nat.le_refl _, rfl,
      Nat.le_refl _, fun _ => rfl, fun _ => rfl, fun h => absurd h (Nat.lt_irrefl _)⟩

end Mettle.Parser
