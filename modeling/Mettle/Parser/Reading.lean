import Mettle.Parser.State

/-!
# Mettle — the parser on the tokens alone

A function of the parser decides by the tokens in front of it; the state only
adds the error bookkeeping. A `Reader` is such a function on the list of tokens
up to the end of the text: it reads a value, gives up without an error
(`absent`), or raises an error (`slip`), after which nothing more is said.

`Follows bad m f` connects the two levels: from every state in front of the
tokens, with the error flag `bad`, the parser function `m` does what `f` says,
and it raises an error exactly where `f` slips. Its rules follow the
combinators, so the connection for a whole function is put together from its
parts.
-/

namespace Mettle.Parser

open Lexing Lib

-- ---
-- The tokens in front of a state
-- ---

/-- The tokens in front of `p`, without the end of the text. -/
inductive Stream : State → List Token → Prop where
  | done {p : State} (hEnd : p.currentToken.type = .eof) : Stream p []
  | more {p : State} {ts : List Token} (hType : p.currentToken.type ≠ .eof)
      (hRest : Stream p.advance ts) : Stream p (p.currentToken :: ts)

/-- The window of `q` is the one of `p`. -/
structure SameWindow (p q : State) : Prop where
  lexer : q.lexer = p.lexer
  currentToken : q.currentToken = p.currentToken
  peekToken : q.peekToken = p.peekToken

variable {p : State}

theorem advance_of_eof (h : p.currentToken.type = .eof) : p.advance = p :=
  if_pos h

theorem advance_window (h : p.currentToken.type ≠ .eof) :
    p.advance.lexer = (nextToken p.lexer).2 ∧ p.advance.currentToken = p.peekToken ∧
      p.advance.peekToken = (nextToken p.lexer).1 := by
  unfold State.advance
  rw [if_neg h]
  dsimp only
  split_ifs <;> exact ⟨rfl, rfl, rfl⟩

variable {q : State}

theorem SameWindow.advance (h : SameWindow p q) : SameWindow p.advance q.advance := by
  by_cases hEnd : p.currentToken.type = .eof
  · rw [advance_of_eof hEnd, advance_of_eof (by rw [h.currentToken]; exact hEnd)]
    exact h
  · have hP := advance_window hEnd
    have hQ := advance_window (p := q) (by rw [h.currentToken]; exact hEnd)
    rw [h.lexer, h.peekToken] at hQ
    exact ⟨hQ.1.trans hP.1.symm, hQ.2.1.trans hP.2.1.symm, hQ.2.2.trans hP.2.2.symm⟩

variable {ts : List Token}

theorem Stream.of_sameWindow (h : Stream p ts) : ∀ {q}, SameWindow p q → Stream q ts := by
  induction h with
  | done hEnd =>
    intro q hSame
    exact .done (by rw [hSame.currentToken]; exact hEnd)
  | more hType _ ih =>
    intro q hSame
    rw [← hSame.currentToken]
    exact .more (by rw [hSame.currentToken]; exact hType) (ih hSame.advance)

variable {us : List Token}

theorem Stream.unique (h : Stream p ts) (h' : Stream p us) : ts = us := by
  induction h generalizing us with
  | done hEnd =>
    cases h' with
    | done => rfl
    | more hType => exact absurd hEnd hType
  | more hType _ ih =>
    cases h' with
    | done hEnd => exact absurd hEnd hType
    | more _ hRest => rw [ih hRest]

/-- **Every state stands in front of finitely many tokens**: a token shortens
what is left of the text. -/
theorem stream_exists (p : State) : ∃ ts, Stream p ts := by
  suffices hAll : ∀ n (p : State), p.lexer.rest.length +
      (if p.peekToken.type = .eof then 0 else 1) ≤ n → ∃ ts, Stream p ts from hAll _ p (Nat.le_refl _)
  intro n
  induction n with
  | zero =>
    intro p hp
    by_cases hEnd : p.currentToken.type = .eof
    · exact ⟨[], .done hEnd⟩
    · have hPeek : p.peekToken.type = .eof := by
        by_contra hMore
        rw [if_neg hMore] at hp
        omega
      have hNext : p.advance.currentToken.type = .eof := by
        rw [(advance_window hEnd).2.1]
        exact hPeek
      exact ⟨[p.currentToken], .more hEnd (.done hNext)⟩
  | succ n ih =>
    intro p hp
    by_cases hEnd : p.currentToken.type = .eof
    · exact ⟨[], .done hEnd⟩
    obtain ⟨hLexer, hCurrent, hPeek⟩ := advance_window hEnd
    by_cases hPeekEnd : p.peekToken.type = .eof
    · exact ⟨[p.currentToken], .more hEnd (.done (by rw [hCurrent]; exact hPeekEnd))⟩
    · rw [if_neg hPeekEnd] at hp
      have hFewer : p.advance.lexer.rest.length +
          (if p.advance.peekToken.type = .eof then 0 else 1) ≤ n := by
        rw [hLexer, hPeek]
        split_ifs with hNextEnd
        · have := (nextToken_ahead p.lexer).rest_length_le
          omega
        · have := nextToken_rest_length_lt hNextEnd
          omega
      obtain ⟨ts, hStream⟩ := ih p.advance hFewer
      exact ⟨_, .more hEnd hStream⟩

-- ---
-- The window of a run
-- ---

/-- The states that a parser of `source` comes to. It advances, changes its flags and reports, and
goes back to a state it has saved. -/
inductive Parses (source : Text) : State → Prop where
  | create (reporter : Option ErrorReporter) : Parses source (.create (.create source) reporter)
  | advance {p : State} (h : Parses source p) : Parses source p.advance
  | flags {p q : State} (h : Parses source p) (hSame : SameWindow p q) : Parses source q
  | restore {p q : State} (hSaved : Parses source p) (hNow : Parses source q) :
    Parses source (q.restoreState p.saveState)

/-- **The window is always over two tokens of the text that follow one another**, but for what is
lost when a token is copied, and the lexer is behind them. -/
theorem parses_window {source : Text} {p : State} (h : Parses source p) :
    ∃ n, p.lexer = lexerAt source (n + 2) ∧ p.currentToken.clone = (tokenAt source n).clone ∧
      p.peekToken.clone = (tokenAt source (n + 1)).clone := by
  induction h with
  | create reporter =>
    refine ⟨0, ?_⟩
    unfold State.create
    dsimp only
    split_ifs <;> exact ⟨rfl, rfl, rfl⟩
  | @advance p _ ih =>
    by_cases hEnd : p.currentToken.type = .eof
    · rwa [advance_of_eof hEnd]
    · obtain ⟨n, hLexer, -, hPeek⟩ := ih
      obtain ⟨hNextLexer, hNextCurrent, hNextPeek⟩ := advance_window hEnd
      rw [hLexer] at hNextLexer hNextPeek
      exact ⟨n + 1, hNextLexer, hNextCurrent ▸ hPeek, congrArg Token.clone hNextPeek⟩
  | flags _ hSame ih =>
    rwa [hSame.lexer, hSame.currentToken, hSame.peekToken]
  | restore _ _ ihSaved ihNow =>
    obtain ⟨n, hLexer, hCurrent, hPeek⟩ := ihSaved
    obtain ⟨m, hNow, -, -⟩ := ihNow
    refine ⟨n, (Lexer.restore_eq ?_).trans hLexer, ?_, ?_⟩
    · rw [hNow, hLexer, lexerAt_source, lexerAt_source]
    · exact (clone_clone _).trans ((clone_clone _).trans hCurrent)
    · exact (clone_clone _).trans ((clone_clone _).trans hPeek)

/-- A guess at `(a)` goes back to the parenthesis. -/
theorem parses_window_guess : ∃ n,
    ((stateOf "(a)").advance.restoreState (stateOf "(a)").saveState).lexer =
        lexerAt "(a)".toList (n + 2) ∧
      ((stateOf "(a)").advance.restoreState (stateOf "(a)").saveState).currentToken.clone =
        (tokenAt "(a)".toList n).clone ∧
      ((stateOf "(a)").advance.restoreState (stateOf "(a)").saveState).peekToken.clone =
        (tokenAt "(a)".toList (n + 1)).clone :=
  parses_window (.restore (.create _) (.advance (.create _)))

def headType (ts : List Token) : TokenType := (ts.head?.map Token.type).getD .eof

def headValue (ts : List Token) : Text := cString ((ts.head?.bind Token.value).getD [])

theorem Stream.headType_eq (h : Stream p ts) : headType ts = p.currentToken.type := by
  cases h with
  | done hEnd => exact hEnd.symm
  | more => rfl

theorem Stream.headValue_eq (h : Stream p ts) (hMore : p.currentToken.type ≠ .eof) :
    headValue ts = cString (p.currentToken.value.getD []) := by
  cases h with
  | done hEnd => exact absurd hEnd hMore
  | more => rfl

theorem Stream.tail (h : Stream p ts) : Stream p.advance ts.tail := by
  cases h with
  | done hEnd =>
    rw [advance_of_eof hEnd]
    exact .done hEnd
  | more _ hRest => exact hRest

-- ---
-- Readers
-- ---

inductive Reading (α : Type) where
  | value (a : α) (rest : List Token)
  | absent (rest : List Token)
  | slip
  | stuck

def Reader (α : Type) : Type := List Token → Reading α

namespace Reader

variable {α β : Type}

def andThen (f : Reader α) (g : α → Reader β) : Reader β := fun ts =>
  match f ts with
  | .value a us => g a us
  | .absent us => .absent us
  | .slip => .slip
  | .stuck => .stuck

instance : Monad Reader where
  pure a := fun ts => .value a ts
  bind := andThen

/-- Go on where `f` gave up without an error. -/
def orElse (f g : Reader α) : Reader α := fun ts =>
  match f ts with
  | .absent us => g us
  | r => r

def absent : Reader α := fun ts => .absent ts

def slip : Reader α := fun _ => .slip

def stuck : Reader α := fun _ => .stuck

def type : Reader TokenType := fun ts => .value (headType ts) ts

def flag (bad : Bool) : Reader Bool := fun ts => .value bad ts

def text : Reader Text := fun ts => .value (headValue ts) ts

def take : Reader Unit := fun ts =>
  if headType ts.tail = .error then .slip else .value () ts.tail

def expect (expected : TokenType) : Reader Unit := do
  let current ← type
  if current = expected then take else slip

theorem bind_run (f : Reader α) (g : α → Reader β) (ts : List Token) :
    (f >>= g) ts = match f ts with
      | .value a us => g a us
      | .absent us => .absent us
      | .slip => .slip
      | .stuck => .stuck := rfl

variable {f : Reader α} {ts : List Token}

theorem bind_of_value {g : α → Reader β} {a : α} (h : f ts = .value a us) : (f >>= g) ts = g a us
    := by
  rw [bind_run, h]

theorem bind_of_slip {g : α → Reader β} (h : f ts = .slip) : (f >>= g) ts = .slip := by
  rw [bind_run, h]

variable {g : Reader α}

theorem orElse_of_value {a : α} (h : f ts = .value a us) : f.orElse g ts = .value a us := by
  rw [orElse, h]

theorem orElse_of_slip (h : f ts = .slip) : f.orElse g ts = .slip := by
  rw [orElse, h]

theorem type_bind (k : TokenType → Reader α) (ts : List Token) :
    (type >>= k) ts = k (headType ts) ts := rfl

theorem text_bind (k : Text → Reader α) (ts : List Token) :
    (text >>= k) ts = k (headValue ts) ts := rfl

theorem flag_bind (bad : Bool) (k : Bool → Reader α) (ts : List Token) :
    (flag bad >>= k) ts = k bad ts := rfl

theorem pure_run (a : α) (ts : List Token) : (pure a : Reader α) ts = .value a ts := rfl

-- ---
-- More fuel
-- ---

/-- `g` says what `f` says, and may say something where `f` is stuck. -/
def Le (f g : Reader α) : Prop := ∀ ts, f ts = .stuck ∨ f ts = g ts

theorem Le.refl (f : Reader α) : Le f f := fun _ => .inr rfl

theorem Le.stuck (g : Reader α) : Le Reader.stuck g := fun _ => .inl rfl

theorem Le.trans {h : Reader α} (hFirst : Le f g) (hNext : Le g h) : Le f h := by
  intro ts
  rcases hFirst ts with hStuck | hSame
  · exact .inl hStuck
  · rw [hSame]
    exact hNext ts

theorem Le.bind {γ : Type} {f f' : Reader γ} {g g' : γ → Reader α} (hFirst : Le f f')
    (hNext : ∀ c, Le (g c) (g' c)) : Le (f >>= g) (f' >>= g') := by
  intro ts
  rw [bind_run, bind_run]
  rcases hFirst ts with hStuck | hSame
  · rw [hStuck]
    exact .inl rfl
  · rw [← hSame]
    cases f ts with
    | value c us => exact hNext c us
    | absent us => exact .inr rfl
    | slip => exact .inr rfl
    | stuck => exact .inl rfl

theorem Le.orElse {f' g' : Reader α} (hFirst : Le f f') (hNext : Le g g') :
    Le (f.orElse g) (f'.orElse g') := by
  intro ts
  unfold Reader.orElse
  rcases hFirst ts with hStuck | hSame
  · rw [hStuck]
    exact .inl rfl
  · rw [← hSame]
    cases f ts with
    | absent us => exact hNext us
    | value c us => exact .inr rfl
    | slip => exact .inr rfl
    | stuck => exact .inl rfl

theorem Le.ite {c : Prop} [Decidable c] {f' g' : Reader α} (hThen : Le f f') (hElse : Le g g') :
    Le (if c then f else g) (if c then f' else g') := by
  split
  · exact hThen
  · exact hElse

theorem Le.of_step {f : Nat → Reader α} (hStep : ∀ n, Le (f n) (f (n + 1))) {m n : Nat}
    (h : m ≤ n) : Le (f m) (f n) := by
  induction h with
  | refl => exact .refl _
  | step _ ih => exact ih.trans (hStep _)

theorem Le.agree {f : Nat → Reader α} (hStep : ∀ n, Le (f n) (f (n + 1))) {m n : Nat}
    (hm : f m ts ≠ .stuck) (hn : f n ts ≠ .stuck) : f m ts = f n ts := by
  rcases Nat.le_total m n with hLe | hLe
  · exact (Le.of_step hStep hLe ts).resolve_left hm
  · exact ((Le.of_step hStep hLe ts).resolve_left hn).symm

end Reader

-- ---
-- The parser follows a reader
-- ---

/-- No error has been raised since `p`. -/
structure Calm (p q : State) : Prop where
  hasError : q.hasError = p.hasError
  hadError : q.hadError = p.hadError
  errorCount : q.errorCount = p.errorCount
  errorMessage : q.errorMessage = p.errorMessage
  reporting : q.reporting = p.reporting
  reporter : q.reporter = p.reporter

theorem Calm.refl (p : State) : Calm p p := ⟨rfl, rfl, rfl, rfl, rfl, rfl⟩

theorem Calm.trans {r : State} (h : Calm p q) (h' : Calm q r) : Calm p r :=
  ⟨h'.hasError.trans h.hasError, h'.hadError.trans h.hadError,
    h'.errorCount.trans h.errorCount, h'.errorMessage.trans h.errorMessage,
    h'.reporting.trans h.reporting, h'.reporter.trans h.reporter⟩

theorem advance_calm (h : Stream p ts) :
    (headType ts.tail = .error → p.errorCount < p.advance.errorCount) ∧
      (headType ts.tail ≠ .error → Calm p p.advance) := by
  rw [h.tail.headType_eq]
  by_cases hEnd : p.currentToken.type = .eof
  · rw [advance_of_eof hEnd]
    exact ⟨fun hError => absurd (hEnd.symm.trans hError) (by decide), fun _ => .refl p⟩
  · rw [(advance_window hEnd).2.1]
    unfold State.advance
    dsimp only
    split_ifs with hError
    · exact ⟨fun _ => Nat.lt_succ_self _, fun h => absurd hError h⟩
    · exact ⟨fun h => absurd h hError, fun _ => ⟨rfl, rfl, rfl, rfl, rfl, rfl⟩⟩

/-- Where the run `out` from `p` stands to what a reader says. -/
def Reading.Describes {α : Type} (p : State) (out : Option (Option α × State)) : Reading α → Prop
  | .value a us => ∃ q, out = some (some a, q) ∧ Stream q us ∧ Calm p q
  | .absent us => ∃ q, out = some (none, q) ∧ Stream q us ∧ Calm p q
  | .slip => ∀ r q, out = some (r, q) → p.errorCount < q.errorCount
  | .stuck => out = none

theorem Reading.Describes.calm {α : Type} {p : State} {out : Option (Option α × State)}
    {r : Reading α} (h : r.Describes q out) (hCalm : Calm p q) : r.Describes p out := by
  cases r with
  | value a us =>
    obtain ⟨q', hRun, hRest, hCalm'⟩ := h
    exact ⟨q', hRun, hRest, hCalm.trans hCalm'⟩
  | absent us =>
    obtain ⟨q', hRun, hRest, hCalm'⟩ := h
    exact ⟨q', hRun, hRest, hCalm.trans hCalm'⟩
  | slip => exact fun r q' hRun => hCalm.errorCount ▸ h r q' hRun
  | stuck => exact h

/-- In front of the tokens `ts`, `m` does what `r` says. -/
def FollowsAt {α : Type} (bad : Bool) (ts : List Token) (m : ParseM α) (r : Reading α) : Prop :=
  ∀ p, Stream p ts → p.hasError = bad → r.Describes p (m p)

/-- `m` notes its errors, and does what `f` says. -/
structure Follows {α : Type} (bad : Bool) (m : ParseM α) (f : Reader α) : Prop where
  noted : m.Within Noted
  reads : ∀ ts, FollowsAt bad ts m (f ts)

variable {α β : Type} {bad : Bool} {m h : ParseM α} {f g : Reader α}

theorem follows_pure (a : α) : Follows bad (pure a) (pure a) where
  noted := .pure Noted.refl a
  reads _ p hStream _ := ⟨p, rfl, hStream, .refl p⟩

theorem follows_null : Follows bad (.null : ParseM α) Reader.absent where
  noted := .null Noted.refl
  reads _ p hStream _ := ⟨p, rfl, hStream, .refl p⟩

theorem follows_stuck : Follows bad (.stuck : ParseM α) Reader.stuck where
  noted := .stuck
  reads _ _ _ _ := rfl

theorem Follows.bind {γ : Type} {m : ParseM γ} {f : Reader γ} {k : γ → ParseM α}
    {l : γ → Reader α} (hFirst : Follows bad m f) (hNext : ∀ c, Follows bad (k c) (l c)) :
    Follows bad (m >>= k) (f >>= l) where
  noted := .bind noted_trans hFirst.noted fun c => (hNext c).noted
  reads ts p hStream hBad := by
    have hM := hFirst.reads ts p hStream hBad
    rw [Reader.bind_run]
    cases hRead : f ts with
    | value c us =>
      rw [hRead] at hM
      obtain ⟨q, hRun, hRest, hCalm⟩ := hM
      rw [Attempt.bind_of_some hRun]
      exact Reading.Describes.calm ((hNext c).reads us q hRest (hCalm.hasError.trans hBad)) hCalm
    | absent us =>
      rw [hRead] at hM
      obtain ⟨q, hRun, hRest, hCalm⟩ := hM
      exact ⟨q, Attempt.bind_of_null hRun, hRest, hCalm⟩
    | slip =>
      rw [hRead] at hM
      intro r q' hRun
      rw [Attempt.bind_run] at hRun
      split at hRun
      · cases hRun
      · cases hRun
        exact hM _ _ (by assumption)
      · next c q hm => exact Nat.lt_of_lt_of_le (hM _ _ hm) ((hNext c).noted hRun).count
    | stuck =>
      rw [hRead] at hM
      show (m >>= k) p = none
      rw [Attempt.bind_run, show m p = none from hM]

theorem Follows.orElse (hFirst : Follows bad m f) (hNext : Follows bad h g) :
    Follows bad (m.orElse h) (f.orElse g) where
  noted := .orElse noted_trans hFirst.noted hNext.noted
  reads ts p hStream hBad := by
    have hM := hFirst.reads ts p hStream hBad
    unfold Reader.orElse
    cases hRead : f ts with
    | value a us =>
      rw [hRead] at hM
      obtain ⟨q, hRun, hRest, hCalm⟩ := hM
      exact ⟨q, Attempt.orElse_of_some hRun, hRest, hCalm⟩
    | absent us =>
      rw [hRead] at hM
      obtain ⟨q, hRun, hRest, hCalm⟩ := hM
      rw [Attempt.orElse_of_null hRun]
      exact Reading.Describes.calm (hNext.reads us q hRest (hCalm.hasError.trans hBad)) hCalm
    | slip =>
      rw [hRead] at hM
      intro r q' hRun
      rw [Attempt.orElse_run] at hRun
      split at hRun
      · next q hm => exact Nat.lt_of_lt_of_le (hM _ _ hm) (hNext.noted hRun).count
      · exact hM _ _ hRun
    | stuck =>
      rw [hRead] at hM
      show m.orElse h p = none
      rw [Attempt.orElse_run, show m p = none from hM]

/-- `m` does what `f` says where the next token is of type `t`. -/
inductive FollowsFor (bad : Bool) (t : TokenType) : ParseM α → Reader α → Prop where
  | always {m : ParseM α} {f : Reader α} (hFollows : Follows bad m f) : FollowsFor bad t m f
  | value {k : Text → ParseM α} {l : Text → Reader α} (hMore : t ≠ .eof)
      (hNext : ∀ v, Follows bad (k v) (l v)) :
      FollowsFor bad t (currentValue >>= k) (Reader.text >>= l)

theorem noted_currentType : currentType.Within Noted := by
  intro s r t hRun
  cases hRun
  exact .refl _

theorem noted_currentValue : currentValue.Within Noted := by
  intro s r t hRun
  cases hRun
  exact .refl _

theorem FollowsFor.noted {t : TokenType} (hFollows : FollowsFor bad t m f) :
    m.Within Noted := by
  cases hFollows with
  | always hFollows => exact hFollows.noted
  | value _ hNext => exact .bind noted_trans noted_currentValue fun v => (hNext v).noted

theorem FollowsFor.describes (hFollows : FollowsFor bad p.currentToken.type m f)
    (hStream : Stream p ts) (hBad : p.hasError = bad) : (f ts).Describes p (m p) := by
  cases hFollows with
  | always hFollows => exact hFollows.reads ts p hStream hBad
  | @value k l hMore hNext =>
    show (l (headValue ts) ts).Describes p (k _ p)
    rw [hStream.headValue_eq hMore]
    exact (hNext _).reads ts p hStream hBad

theorem Follows.byType {k : TokenType → ParseM α} {l : TokenType → Reader α}
    (hNext : ∀ t, FollowsFor bad t (k t) (l t)) :
    Follows bad (currentType >>= k) (Reader.type >>= l) where
  noted := .bind noted_trans noted_currentType fun t => (hNext t).noted
  reads ts p hStream hBad := by
    show (l (headType ts) ts).Describes p (k p.currentToken.type p)
    rw [hStream.headType_eq]
    exact (hNext _).describes hStream hBad

theorem follows_errorFlag : Follows bad errorFlag (Reader.flag bad) where
  noted := by
    intro s r t hRun
    cases hRun
    exact .refl _
  reads _ p hStream hBad := ⟨p, by rw [errorFlag, hBad], hStream, .refl p⟩

theorem follows_advance : Follows bad advance Reader.take where
  noted := .update noted_advance
  reads ts p hStream _ := by
    have hCalm := advance_calm hStream
    unfold Reader.take
    split_ifs with hError
    · intro r q hRun
      cases hRun
      exact hCalm.1 hError
    · exact ⟨p.advance, rfl, hStream.tail, hCalm.2 hError⟩

theorem follows_failWith (message : String) :
    Follows bad (failWith message : ParseM α) Reader.slip where
  noted := .bind noted_trans (.update fun p => (noted_raise p _ _).1) fun _ => .null Noted.refl
  reads _ p _ _ := by
    intro r q hRun
    cases hRun
    exact (noted_raise p _ _).2

theorem follows_expect (expected : TokenType) :
    Follows bad (expect expected) (Reader.expect expected) := by
  refine .byType fun t => .always ?_
  split_ifs with hType
  · exact follows_advance
  · exact
      { noted := .bind noted_trans (.update fun p => (noted_raise p _ _).1)
          fun _ => .null Noted.refl
        reads := fun _ p _ _ r q hRun => by
          cases hRun
          exact (noted_raise p _ _).2 }

end Mettle.Parser
