import Mettle.Parser.Expression

/-!
# Mettle — the two guesses of the expression parser

Whether `(` opens a cast and whether `<` opens type arguments is decided by
reading ahead and going back. A guess that fails restores the token window and
the error flags; what it does not restore is what its type parse reported.
-/

namespace Mettle.Parser

open Lexing Lib

-- ---
-- No function reads backwards
-- ---

/-- The same text, and no more tokens of it left at `q` than at `p`. -/
structure Fewer (p q : State) : Prop where
  source : q.lexer.source = p.lexer.source
  length : ∀ ⦃ts⦄, Stream p ts → ∃ us, Stream q us ∧ us.length ≤ ts.length

theorem Fewer.refl (p : State) : Fewer p p := ⟨rfl, fun ts h => ⟨ts, h, Nat.le_refl _⟩⟩

theorem fewer_trans (p q r : State) (h : Fewer p q) (h' : Fewer q r) : Fewer p r := by
  refine ⟨h'.source.trans h.source, fun ts hStream => ?_⟩
  obtain ⟨us, hUs, hLe⟩ := h.length hStream
  obtain ⟨vs, hVs, hLe'⟩ := h'.length hUs
  exact ⟨vs, hVs, Nat.le_trans hLe' hLe⟩

theorem fewer_advance (p : State) : Fewer p p.advance := by
  refine ⟨?_, fun ts h => ⟨ts.tail, h.tail, by simp⟩⟩
  by_cases hEnd : p.currentToken.type = .eof
  · rw [advance_of_eof hEnd]
  · rw [(advance_window hEnd).1]
    exact (nextToken_ahead p.lexer).source

variable {p q : State}

theorem fewer_of_sameWindow (h : SameWindow p q) : Fewer p q :=
  ⟨by rw [h.lexer], fun ts hStream => ⟨ts, hStream.of_sameWindow h, Nat.le_refl _⟩⟩

abbrev Shrinks {α : Type} (m : ParseM α) : Prop := m.Within Fewer

variable {unary : ParseM Node}

variable (message : String)

section Shrinks

variable {α : Type}

theorem shrinks_pure (a : α) : Shrinks (pure a : ParseM α) := .pure Fewer.refl a

theorem shrinks_null : Shrinks (.null : ParseM α) := .null Fewer.refl

theorem shrinks_bind {γ : Type} {m : ParseM γ} {k : γ → ParseM α} (hFirst : Shrinks m)
    (hNext : ∀ c, Shrinks (k c)) : Shrinks (m >>= k) := .bind fewer_trans hFirst hNext

theorem shrinks_orElse {m h : ParseM α} (hFirst : Shrinks m) (hNext : Shrinks h) :
    Shrinks (m.orElse h) := .orElse fewer_trans hFirst hNext

theorem shrinks_advance : Shrinks advance := .update fewer_advance

theorem shrinks_update {f : State → State} (hSame : ∀ p, SameWindow p (f p)) :
    Shrinks (.update f) := .update fun p => fewer_of_sameWindow (hSame p)

theorem shrinks_currentType : Shrinks currentType := by
  intro s r t hRun
  cases hRun
  exact .refl _

theorem shrinks_currentValue : Shrinks currentValue := by
  intro s r t hRun
  cases hRun
  exact .refl _

theorem shrinks_errorFlag : Shrinks errorFlag := by
  intro s r t hRun
  cases hRun
  exact .refl _

theorem shrinks_setError : Shrinks (setError message) :=
  shrinks_update fun _ => ⟨rfl, rfl, rfl⟩

theorem shrinks_failWith : Shrinks (failWith message : ParseM α) :=
  shrinks_bind (shrinks_setError message) fun _ => shrinks_null

theorem shrinks_unlessError : Shrinks (unlessError message : ParseM α) :=
  shrinks_bind shrinks_errorFlag fun _ => .ite shrinks_null (shrinks_failWith message)

theorem shrinks_expect (type : TokenType) : Shrinks (expect type) :=
  shrinks_bind shrinks_currentType fun _ => .ite shrinks_advance
    (shrinks_bind (shrinks_update fun _ => ⟨rfl, rfl, rfl⟩) fun _ => shrinks_null)

theorem shrinks_clearError : Shrinks clearError := shrinks_update fun _ => ⟨rfl, rfl, rfl⟩

theorem shrinks_takeValue {k : Text → ParseM α} (hNext : ∀ v, Shrinks (k v)) : Shrinks (do
      let v ← currentValue
      advance
      k v) :=
  shrinks_bind shrinks_currentValue fun v => shrinks_bind shrinks_advance fun _ => hNext v

variable {inner : ParseM Text}

theorem shrinks_typeList (hInner : Shrinks inner) (close : TokenType) (noComma noType : String)
    (fuel : Nat) (first : Bool) (buffer : Text) :
    Shrinks (typeList inner close noComma noType fuel first buffer) := by
  induction fuel generalizing first buffer with
  | zero => exact .stuck
  | succ fuel ih =>
    have hNext : ∀ buffer, Shrinks (do
        let one ← inner.orElse (unlessError noType)
        typeList inner close noComma noType fuel false (buffer ++ one)) := fun _ =>
      shrinks_bind (shrinks_orElse hInner (shrinks_unlessError noType)) fun _ => ih ..
    refine shrinks_bind shrinks_currentType fun type => shrinks_bind shrinks_errorFlag fun _ => ?_
    split_ifs
    · exact shrinks_pure buffer
    · exact shrinks_bind (shrinks_pure buffer) hNext
    · exact shrinks_bind (shrinks_failWith noComma) hNext
    · exact shrinks_bind shrinks_advance fun _ => shrinks_bind (shrinks_pure _) hNext

theorem shrinks_typeBase (hInner : Shrinks inner) (fuel : Nat) : Shrinks (typeBase inner fuel) := by
  refine shrinks_bind shrinks_currentType fun type => ?_
  split_ifs
  · exact shrinks_bind shrinks_advance fun _ =>
      shrinks_bind (shrinks_orElse (shrinks_expect _) (shrinks_failWith _)) fun _ =>
        shrinks_bind (shrinks_typeList hInner ..) fun _ =>
          shrinks_bind (shrinks_expect _) fun _ =>
            shrinks_bind (shrinks_orElse (shrinks_expect _) (shrinks_failWith _)) fun _ =>
              shrinks_bind (shrinks_orElse hInner (shrinks_unlessError _)) fun _ => shrinks_pure _
  · exact shrinks_null
  · exact shrinks_takeValue fun _ => shrinks_pure _

theorem shrinks_typeQualifiers (fuel : Nat) (name : Text) : Shrinks (typeQualifiers fuel name) := by
  induction fuel generalizing name with
  | zero => exact .stuck
  | succ fuel ih =>
    refine shrinks_bind shrinks_currentType fun type => .ite ?_ (shrinks_pure name)
    refine shrinks_bind shrinks_advance fun _ => shrinks_bind shrinks_currentType fun part => ?_
    exact .ite (shrinks_failWith _) (shrinks_takeValue fun _ => ih _)

theorem shrinks_typeArguments (hInner : Shrinks inner) (fuel : Nat) (name : Text) :
    Shrinks (typeArguments inner fuel name) :=
  shrinks_bind shrinks_currentType fun _ => .ite
    (shrinks_bind shrinks_advance fun _ => shrinks_bind (shrinks_typeList hInner ..) fun _ =>
      shrinks_bind (shrinks_expect _) fun _ => shrinks_pure _)
    (shrinks_pure name)

theorem shrinks_typeStars (fuel : Nat) (name : Text) : Shrinks (typeStars fuel name) := by
  induction fuel generalizing name with
  | zero => exact .stuck
  | succ fuel ih =>
    exact shrinks_bind shrinks_currentType fun _ =>
      .ite (shrinks_bind shrinks_advance fun _ => ih _) (shrinks_pure name)

theorem shrinks_typeArraySize (name : Text) : Shrinks (typeArraySize name) :=
  shrinks_bind shrinks_currentType fun _ => .ite (shrinks_pure name)
    (shrinks_bind shrinks_advance fun _ => shrinks_bind shrinks_currentType fun _ =>
      .ite (shrinks_failWith _)
        (shrinks_takeValue fun _ => shrinks_bind (shrinks_expect _) fun _ => shrinks_pure _))

theorem shrinks_typeAnnotationText (fuel : Nat) : Shrinks (typeAnnotationText fuel) := by
  induction fuel with
  | zero => exact .stuck
  | succ fuel ih =>
    exact shrinks_bind (shrinks_typeBase ih fuel) fun _ =>
      shrinks_bind (shrinks_typeQualifiers fuel _) fun _ =>
        shrinks_bind (shrinks_typeArguments ih fuel _) fun _ =>
          shrinks_bind (shrinks_typeStars fuel _) fun _ => shrinks_typeArraySize _

-- ---
-- The two guesses
-- ---

theorem clone_type (token : Token) : token.clone.type = token.type := by
  unfold Token.clone
  split_ifs <;> rfl

/-- Two windows over the same text whose tokens differ in their values only. -/
structure SameTypes (p q : State) : Prop where
  lexer : q.lexer = p.lexer
  currentType : q.currentToken.type = p.currentToken.type
  peekType : q.peekToken.type = p.peekToken.type

theorem fewer_of_sameTypes (hSame : SameTypes p q) : Fewer p q := by
  refine ⟨by rw [hSame.lexer], fun ts hStream => ?_⟩
  obtain ⟨us, hUs⟩ := stream_exists q
  refine ⟨us, hUs, ?_⟩
  cases hStream with
  | done hEnd =>
    cases hUs with
    | done => exact Nat.le_refl _
    | more hType => exact absurd (hSame.currentType.trans hEnd) hType
  | @more _ ts hType hRest =>
    cases hUs with
    | done => exact Nat.zero_le _
    | @more _ us hType' hRest' =>
      obtain ⟨hLexer, hCurrent, hPeek⟩ := advance_window hType
      obtain ⟨hLexer', hCurrent', hPeek'⟩ := advance_window hType'
      suffices hTail : us.length ≤ ts.length from Nat.succ_le_succ hTail
      cases hRest with
      | done hEnd =>
        cases hRest' with
        | done => exact Nat.le_refl _
        | more hMore => exact absurd (by rw [hCurrent', hSame.peekType, ← hCurrent, hEnd]) hMore
      | @more _ ts hMore hRest =>
        cases hRest' with
        | done => exact Nat.zero_le _
        | @more _ us hMore' hRest' =>
          obtain ⟨hLexer₂, hCurrent₂, hPeek₂⟩ := advance_window hMore
          obtain ⟨hLexer₂', hCurrent₂', hPeek₂'⟩ := advance_window hMore'
          -- Two tokens on, the windows are the same.
          have hWindow : SameWindow p.advance.advance q.advance.advance :=
            ⟨by rw [hLexer₂', hLexer₂, hLexer', hLexer, hSame.lexer],
              by rw [hCurrent₂', hCurrent₂, hPeek', hPeek, hSame.lexer],
              by rw [hPeek₂', hPeek₂, hLexer', hLexer, hSame.lexer]⟩
          rw [(hRest.of_sameWindow hWindow).unique hRest']
          exact Nat.le_refl _

theorem fewer_restoreState (h : Fewer p q) : Fewer p (q.restoreState p.saveState) := by
  rw [restoreState_saveState h.source]
  exact fewer_of_sameTypes ⟨rfl, clone_type _, clone_type _⟩

theorem endsIn_restoreAndFail (h : Fewer p q) :
    (restoreAndFail p.saveState : ParseM α).EndsIn (Fewer p) q := by
  intro r t hRun
  cases hRun
  exact fewer_restoreState h

theorem shrinks_typeArgsLoop (fuel : Nat) (typeArgs : List Text) :
    Shrinks (typeArgsLoop fuel typeArgs) := by
  induction fuel generalizing typeArgs with
  | zero => exact .stuck
  | succ fuel ih =>
    have hNext : Shrinks (do
        let arg ← typeAnnotationText fuel
        let error ← errorFlag
        if error then .null else typeArgsLoop fuel (typeArgs ++ [arg])) :=
      shrinks_bind (shrinks_typeAnnotationText fuel) fun _ =>
        shrinks_bind shrinks_errorFlag fun _ => .ite shrinks_null (ih _)
    refine shrinks_bind shrinks_currentType fun type => .ite (shrinks_pure _) ?_
    split_ifs
    · exact hNext
    · exact shrinks_bind shrinks_null fun _ => hNext
    · exact shrinks_bind shrinks_advance fun _ => hNext

theorem shrinks_guessTypeArgs (fuel : Nat) : Shrinks (guessTypeArgs fuel) :=
  shrinks_bind shrinks_advance fun _ => shrinks_bind (shrinks_typeArgsLoop fuel []) fun _ =>
    shrinks_bind shrinks_currentType fun _ => .ite
      (shrinks_bind shrinks_advance fun _ => shrinks_bind shrinks_currentType fun _ =>
        .ite (shrinks_pure _) shrinks_null)
      shrinks_null

theorem shrinks_guessCastType (fuel : Nat) : Shrinks (guessCastType fuel) :=
  shrinks_bind shrinks_advance fun _ => shrinks_bind (shrinks_typeAnnotationText fuel) fun _ =>
    shrinks_bind shrinks_errorFlag fun _ => shrinks_bind shrinks_currentType fun _ =>
      .ite shrinks_null (shrinks_pure _)

theorem shrinks_read {k : State → ParseM α} (hBody : ∀ p, (k p).EndsIn (Fewer p) p) :
    Shrinks (.read >>= k) := fun p _ _ hRun => hBody p hRun

theorem endsIn_guess {γ : Type} {f : State → State} {guess : ParseM γ} {k : γ → ParseM α}
    (hSame : SameWindow p (f p)) (hGuess : Shrinks guess)
    (hNext : ∀ c q, Fewer p q → (k c).EndsIn (Fewer p) q) :
    Attempt.EndsIn (Fewer p) (do
      .update f
      let c ← guess.orElse (restoreAndFail p.saveState)
      k c) p := by
  have hStart : Fewer p (f p) := fewer_of_sameWindow hSame
  refine .bind (fun r t hRun => by cases hRun; exact hStart) fun _ q hQ => ?_
  refine .bind (.orElse (hGuess.endsIn fewer_trans hQ) fun q hQ => ?_) hNext
  exact endsIn_restoreAndFail hQ

theorem shrinks_tryGenericCallTypeArgs (fuel : Nat) : Shrinks (tryGenericCallTypeArgs fuel) := by
  refine shrinks_read fun p => ?_
  split_ifs
  · exact shrinks_null.endsIn fewer_trans (.refl p)
  · refine endsIn_guess ⟨rfl, rfl, rfl⟩ (shrinks_guessTypeArgs fuel) fun typeArgs q hQ => ?_
    exact (shrinks_bind shrinks_clearError fun _ => shrinks_pure typeArgs).endsIn fewer_trans hQ

theorem endsIn_castOperand (hUnary : Shrinks unary) (typeName : Text)
    (hQ : Fewer p q) : (castOperand unary p.saveState typeName).EndsIn (Fewer p) q := by
  have hReporter : Shrinks (.update fun q => { q with reporting := p.saveState.reporting }) :=
    shrinks_update fun _ => ⟨rfl, rfl, rfl⟩
  refine .bind (hReporter.endsIn fewer_trans hQ) fun _ q hQ => ?_
  refine .bind (shrinks_advance.endsIn fewer_trans hQ) fun _ q hQ => ?_
  refine .bind (shrinks_currentType.endsIn fewer_trans hQ) fun type q hQ => ?_
  split_ifs
  · exact endsIn_restoreAndFail hQ
  · exact (shrinks_bind shrinks_clearError fun _ =>
      shrinks_bind hUnary fun _ => shrinks_pure _).endsIn fewer_trans hQ

theorem shrinks_castExpression (hUnary : Shrinks unary) (fuel : Nat) :
    Shrinks (castExpression unary fuel) := by
  refine shrinks_read fun p => ?_
  split_ifs
  · exact shrinks_null.endsIn fewer_trans (.refl p)
  · exact shrinks_null.endsIn fewer_trans (.refl p)
  · exact endsIn_guess ⟨rfl, rfl, rfl⟩ (shrinks_guessCastType fuel) fun typeName q hQ =>
      endsIn_castOperand hUnary typeName hQ

-- ---
-- Every expression
-- ---

variable {expression : ParseM Node}

theorem shrinks_attempt {m : ParseM α} (h : Shrinks m) : Shrinks m.attempt := .attempt h

theorem shrinks_numberLiteral (value : Text) : Shrinks (numberLiteral value) := by
  refine .ite (shrinks_bind shrinks_advance fun _ => shrinks_pure _) ?_
  split
  · exact shrinks_failWith _
  · exact shrinks_bind shrinks_advance fun _ => shrinks_pure _

theorem shrinks_skipSeparators (fuel : Nat) : Shrinks (skipSeparators fuel) := by
  induction fuel with
  | zero => exact .stuck
  | succ fuel ih =>
    exact shrinks_bind shrinks_currentType fun _ =>
      .ite (shrinks_bind shrinks_advance fun _ => ih) (shrinks_pure _)

theorem shrinks_matchBinding : Shrinks matchBinding :=
  shrinks_bind shrinks_currentType fun _ => .ite
    (shrinks_bind shrinks_advance fun _ => shrinks_bind shrinks_currentType fun _ =>
      .ite (shrinks_failWith _)
        (shrinks_takeValue fun _ => shrinks_bind (shrinks_expect _) fun _ => shrinks_pure _))
    (shrinks_pure _)

theorem shrinks_matchPattern (seenDefault : Bool) : Shrinks (matchPattern seenDefault) := by
  refine shrinks_bind shrinks_currentType fun type => .ite (.ite (shrinks_failWith _) ?_) ?_
  · exact shrinks_bind shrinks_advance fun _ =>
      shrinks_bind (shrinks_expect _) fun _ => shrinks_pure _
  · refine .ite (shrinks_bind shrinks_advance fun _ => ?_) (shrinks_failWith _)
    exact shrinks_bind shrinks_currentType fun _ => .ite (shrinks_failWith _)
      (shrinks_takeValue fun _ => shrinks_bind shrinks_matchBinding fun _ =>
        shrinks_bind (shrinks_expect _) fun _ => shrinks_pure _)

section

variable (hExpression : Shrinks expression)
include hExpression

theorem shrinks_matchArm (seenDefault : Bool) : Shrinks (matchArm expression seenDefault) :=
  shrinks_bind (shrinks_matchPattern seenDefault) fun _ =>
    shrinks_bind (shrinks_orElse hExpression (shrinks_unlessError _)) fun _ =>
      shrinks_bind shrinks_currentType fun _ =>
        .ite (shrinks_bind shrinks_advance fun _ => shrinks_pure _) (shrinks_pure _)

theorem shrinks_matchArms (fuel : Nat) (arms : List (Option Text × Option Text × Node)) :
    Shrinks (matchArms expression fuel arms) := by
  induction fuel generalizing arms with
  | zero => exact .stuck
  | succ fuel ih =>
    refine shrinks_bind shrinks_currentType fun _ => shrinks_bind shrinks_errorFlag fun _ =>
      .ite (shrinks_pure arms) (shrinks_bind (shrinks_skipSeparators fuel) fun _ => ?_)
    refine shrinks_bind shrinks_currentType fun _ => .ite (shrinks_pure arms)
      (shrinks_bind (shrinks_attempt (shrinks_matchArm hExpression _)) fun arm => ?_)
    cases arm with
    | none => exact shrinks_pure arms
    | some arm => exact shrinks_bind (shrinks_skipSeparators fuel) fun _ => ih _

theorem shrinks_matchExpression (fuel : Nat) : Shrinks (matchExpression expression fuel) :=
  shrinks_bind (shrinks_expect _) fun _ =>
    shrinks_bind (shrinks_orElse (shrinks_expect _) (shrinks_failWith _)) fun _ =>
      shrinks_bind hExpression fun _ => shrinks_bind (shrinks_expect _) fun _ =>
        shrinks_bind (shrinks_expect _) fun _ =>
          shrinks_bind (shrinks_matchArms hExpression fuel []) fun _ =>
            shrinks_bind shrinks_errorFlag fun _ => .ite shrinks_null
              (shrinks_bind (shrinks_expect _) fun _ => shrinks_pure _)

theorem shrinks_primaryExpression (fuel : Nat) : Shrinks (primaryExpression expression fuel) := by
  refine shrinks_bind shrinks_currentType fun type =>
    .ite (shrinks_takeValue fun _ => shrinks_pure _) ?_
  split
  · exact shrinks_bind shrinks_currentValue fun _ => shrinks_numberLiteral _
  · exact shrinks_takeValue fun _ => shrinks_pure _
  · exact shrinks_bind shrinks_advance fun _ => shrinks_bind shrinks_currentType fun _ =>
      .ite (shrinks_failWith _) (shrinks_takeValue fun _ => shrinks_pure _)
  · refine shrinks_bind shrinks_advance fun _ =>
      shrinks_bind (shrinks_attempt hExpression) fun inside =>
        shrinks_bind (shrinks_expect _) fun _ => ?_
    cases inside with
    | none => exact shrinks_null
    | some inside => exact shrinks_pure inside
  · exact shrinks_matchExpression hExpression fuel
  · exact shrinks_bind shrinks_advance fun _ => shrinks_pure _
  · exact shrinks_bind shrinks_advance fun _ => shrinks_bind shrinks_currentType fun _ =>
      .ite (shrinks_failWith _)
        (shrinks_bind (shrinks_typeAnnotationText fuel) fun _ => shrinks_pure _)
  · exact shrinks_failWith _

theorem shrinks_callArguments (fuel : Nat) (arguments : List Node) :
    Shrinks (callArguments expression fuel arguments) := by
  induction fuel generalizing arguments with
  | zero => exact .stuck
  | succ fuel ih =>
    refine shrinks_bind (shrinks_attempt hExpression) fun argument => ?_
    cases argument with
    | none => exact shrinks_pure arguments
    | some argument =>
      exact shrinks_bind shrinks_currentType fun _ =>
        .ite (shrinks_bind shrinks_advance fun _ => ih _)
          (.ite (shrinks_pure _) (shrinks_bind (shrinks_setError _) fun _ => shrinks_pure _))

theorem shrinks_argumentList (fuel : Nat) : Shrinks (argumentList expression fuel) := by
  refine shrinks_bind shrinks_currentType fun type => ?_
  have hClose : ∀ arguments : List Node, Shrinks (do
      expect .rparen
      pure arguments) := fun _ => shrinks_bind (shrinks_expect _) fun _ => shrinks_pure _
  split_ifs
  · exact shrinks_bind (shrinks_pure _) hClose
  · exact shrinks_bind (shrinks_callArguments hExpression fuel []) hClose

end

theorem shrinks_sizeofArgument (fuel : Nat) : Shrinks (sizeofArgument fuel) :=
  shrinks_bind shrinks_currentType fun _ => .ite (shrinks_failWith _)
    (shrinks_bind (shrinks_orElse (shrinks_typeAnnotationText fuel) (shrinks_unlessError _))
      fun _ => shrinks_bind shrinks_currentType fun _ => .ite (shrinks_failWith _)
        (shrinks_bind (shrinks_expect _) fun _ => shrinks_pure _))

theorem shrinks_callOf (hExpression : Shrinks expression) (fuel : Nat) (callee : Node) :
    Shrinks (callOf expression fuel callee) := by
  unfold callOf
  split
  · split_ifs
    · exact shrinks_bind (shrinks_sizeofArgument fuel) fun _ => shrinks_pure _
    · exact shrinks_bind (shrinks_argumentList hExpression fuel) fun _ => shrinks_pure _
  · exact shrinks_bind (shrinks_argumentList hExpression fuel) fun _ => shrinks_pure _
  · exact shrinks_bind (shrinks_argumentList hExpression fuel) fun _ => shrinks_null

theorem shrinks_memberName : Shrinks (memberName message) :=
  shrinks_bind shrinks_currentType fun _ =>
    .ite (shrinks_failWith _) (shrinks_takeValue fun _ => shrinks_pure _)

theorem shrinks_postfixLoop (hExpression : Shrinks expression) (fuel : Nat) (node : Node) :
    Shrinks (postfixLoop expression fuel node) := by
  induction fuel generalizing node with
  | zero => exact .stuck
  | succ fuel ih =>
    have hPlain : Shrinks (postfixPlain expression fuel node (postfixLoop expression fuel)) := by
      refine shrinks_bind shrinks_currentType fun type => ?_
      split
      · exact shrinks_bind shrinks_advance fun _ =>
          shrinks_bind (shrinks_callOf hExpression fuel node) fun _ => ih _
      · exact shrinks_bind shrinks_advance fun _ =>
          shrinks_bind (shrinks_memberName _) fun _ => ih _
      · exact shrinks_bind shrinks_advance fun _ =>
          shrinks_bind (shrinks_memberName _) fun _ => ih _
      · exact shrinks_bind shrinks_advance fun _ => shrinks_bind hExpression fun _ =>
          shrinks_bind (shrinks_expect _) fun _ => ih _
      · exact shrinks_pure node
    cases node with
    | identifier name =>
      refine shrinks_bind (shrinks_attempt (shrinks_tryGenericCallTypeArgs fuel)) fun typeArgs => ?_
      cases typeArgs with
      | none => exact hPlain
      | some typeArgs =>
        exact shrinks_bind shrinks_advance fun _ =>
          shrinks_bind (shrinks_argumentList hExpression fuel) fun _ => ih _
    | _ => exact hPlain

theorem shrinks_unaryWith (hUnary : Shrinks unary) (hExpression : Shrinks expression)
    (fuel : Nat) : Shrinks (unaryWith unary expression fuel) :=
  shrinks_orElse (shrinks_castExpression hUnary fuel)
    (shrinks_bind shrinks_currentType fun _ => .ite
      (shrinks_takeValue fun _ => shrinks_bind hUnary fun _ => shrinks_pure _)
      (shrinks_bind (shrinks_primaryExpression hExpression fuel) fun _ =>
        shrinks_postfixLoop hExpression fuel _))

theorem shrinks_binaryLoop {binary : Nat → ParseM Node}
    (hBinary : ∀ minPrecedence, Shrinks (binary minPrecedence)) (minPrecedence fuel : Nat)
    (left : Node) : Shrinks (binaryLoop binary minPrecedence fuel left) := by
  induction fuel generalizing left with
  | zero => exact .stuck
  | succ fuel ih =>
    exact shrinks_bind shrinks_currentType fun _ => .ite
      (shrinks_takeValue fun _ => shrinks_bind (hBinary _) fun _ => ih _) (shrinks_pure left)

/-- **No function of the expression parser leaves more tokens than it finds**,
whether it returns a tree or gives up. -/
theorem expressions_shrink (fuel : Nat) : Shrinks (unaryExpression fuel) ∧
      ∀ minPrecedence, Shrinks (binaryExpression fuel minPrecedence) := by
  induction fuel with
  | zero => exact ⟨.stuck, fun _ => .stuck⟩
  | succ fuel ih =>
    exact ⟨shrinks_unaryWith ih.1 (ih.2 0) fuel, fun minPrecedence =>
      shrinks_bind ih.1 fun _ => shrinks_binaryLoop ih.2 minPrecedence fuel _⟩

end Shrinks

-- ---
-- The guesses on the tokens alone
-- ---

def typeArgsLoopReader (bad : Bool) : Nat → List Text → Reader (List Text)
  | 0, _ => .stuck
  | fuel + 1, typeArgs => do
    let type ← .type
    if type = .greaterThan ∨ type = .eof then pure typeArgs
    else do
      if typeArgs = [] then pure ()
      else if type ≠ .comma then .absent
      else .take
      let arg ← typeAnnotationReader bad fuel
      let error ← .flag bad
      if error then .absent else typeArgsLoopReader bad fuel (typeArgs ++ [arg])

def guessTypeArgsReader (bad : Bool) (fuel : Nat) : Reader (List Text) := do
  .take
  let typeArgs ← typeArgsLoopReader bad fuel []
  let type ← .type
  if type = .greaterThan then do
    .take
    let type ← .type
    if type = .lparen then pure typeArgs else .absent
  else .absent

def guessCastReader (bad : Bool) (fuel : Nat) : Reader Text := do
  .take
  let typeName ← typeAnnotationReader bad fuel
  let error ← .flag bad
  let type ← .type
  if error ∨ type ≠ .rparen then .absent else pure typeName

variable (bad : Bool)

theorem follows_typeArgsLoop (fuel : Nat) (typeArgs : List Text) :
    Follows bad (typeArgsLoop fuel typeArgs) (typeArgsLoopReader bad fuel typeArgs) := by
  induction fuel generalizing typeArgs with
  | zero => exact follows_stuck
  | succ fuel ih =>
    have hNext : Follows bad (do
        let arg ← typeAnnotationText fuel
        let error ← errorFlag
        if error then .null else typeArgsLoop fuel (typeArgs ++ [arg])) (do
        let arg ← typeAnnotationReader bad fuel
        let error ← .flag bad
        if error then .absent else typeArgsLoopReader bad fuel (typeArgs ++ [arg])) := by
      refine (typeAnnotationText_follows bad fuel).bind fun _ =>
        follows_errorFlag.bind fun error => ?_
      split
      · exact follows_null
      · exact ih _
    refine .byType fun type => .always ?_
    split_ifs
    · exact follows_pure _
    · exact hNext
    · exact follows_null.bind fun _ => hNext
    · exact follows_advance.bind fun _ => hNext

theorem follows_guessTypeArgs (fuel : Nat) :
    Follows bad (guessTypeArgs fuel) (guessTypeArgsReader bad fuel) := by
  refine follows_advance.bind fun _ => (follows_typeArgsLoop bad fuel []).bind fun typeArgs =>
    .byType fun type => .always ?_
  split_ifs
  · refine follows_advance.bind fun _ => .byType fun type => .always ?_
    split_ifs
    · exact follows_pure typeArgs
    · exact follows_null
  · exact follows_null

theorem follows_guessCastType (fuel : Nat) :
    Follows bad (guessCastType fuel) (guessCastReader bad fuel) := by
  refine follows_advance.bind fun _ => (typeAnnotationText_follows bad fuel).bind fun typeName =>
    follows_errorFlag.bind fun error => .byType fun type => .always ?_
  split_ifs
  · exact follows_null
  · exact follows_pure typeName

theorem typeArgsLoopReader_le (fuel : Nat) (typeArgs : List Text) :
    (typeArgsLoopReader bad fuel typeArgs).Le (typeArgsLoopReader bad (fuel + 1) typeArgs) := by
  induction fuel generalizing typeArgs with
  | zero => exact .stuck _
  | succ fuel ih =>
    have hNext : Reader.Le (do
        let arg ← typeAnnotationReader bad fuel
        let error ← .flag bad
        if error then .absent else typeArgsLoopReader bad fuel (typeArgs ++ [arg])) (do
        let arg ← typeAnnotationReader bad (fuel + 1)
        let error ← .flag bad
        if error then .absent else typeArgsLoopReader bad (fuel + 1) (typeArgs ++ [arg])) :=
      .bind (typeAnnotationReader_le bad fuel) fun _ => .bind (.refl _) fun _ =>
        .ite (.refl _) (ih _)
    refine .bind (.refl _) fun type => .ite (.refl _) ?_
    split_ifs
    · exact hNext
    · exact .bind (.refl _) fun _ => hNext
    · exact .bind (.refl _) fun _ => hNext

theorem guessTypeArgsReader_le (fuel : Nat) :
    (guessTypeArgsReader bad fuel).Le (guessTypeArgsReader bad (fuel + 1)) :=
  .bind (.refl _) fun _ => .bind (typeArgsLoopReader_le bad fuel []) fun _ => .refl _

theorem guessCastReader_le (fuel : Nat) :
    (guessCastReader bad fuel).Le (guessCastReader bad (fuel + 1)) :=
  .bind (.refl _) fun _ => .bind (typeAnnotationReader_le bad fuel) fun _ => .refl _

-- ---
-- What a failed guess leaves behind
-- ---

/-- Behind the `<` in front of `p`, a list of types breaks off inside a type, or
runs into a lexical error. -/
def State.BreaksOffInType (p : State) : Prop :=
  ∃ ts fuel, Stream p ts ∧ guessTypeArgsReader p.hasError fuel ts = .slip

/-- Nothing is left of a guess at type arguments that fails: it never started; or
the snapshot is faithful and no type broke off, or nobody records that. -/
def State.TypeArgsTraceless (p : State) : Prop :=
  p.currentToken.type ≠ .lessThan ∨ p.TokensCopied ∧
      (p.reporting = false ∨ p.reporter.isFull = true ∨ ¬ p.BreaksOffInType)

/-- A cast is tried: `(` and then what may start a type. -/
def State.TriesCast (p : State) : Prop :=
  p.currentToken.type = .lparen ∧
    (isTypeKeyword p.peekToken.type = true ∨ isIdentifierLike p.peekToken.type = true ∨
      p.peekToken.type = .kwFn)

/-- In front of `p` stands a type in parentheses, and what follows does not say
that they only group. -/
def State.CommitsToCast (p : State) : Prop :=
  ∃ ts fuel typeName us, Stream p ts ∧
    guessCastReader p.hasError fuel ts = .value typeName us ∧ endsGroup (headType us.tail) = false

/-- Nothing is left of a cast that gives up: it never started, or the snapshot is
faithful and taken back to. -/
def State.CastTraceless (p : State) : Prop :=
  ¬ p.TriesCast ∨ p.TokensCopied ∧ ¬ p.CommitsToCast

variable {saved : SavedState}

theorem orElse_restore_null {α : Type} {guess : ParseM α}
    (hRun : guess.orElse (restoreAndFail saved) p = some (none, q)) :
    ∃ q₁, guess p = some (none, q₁) ∧ q = q₁.restoreState saved := by
  rw [Attempt.orElse_run] at hRun
  split at hRun
  · next q₁ hGuess =>
    cases hRun
    exact ⟨q₁, hGuess, rfl⟩
  · next hSome => exact absurd hRun (hSome q)

variable {fuel : Nat}

theorem tryGeneric_traceless_iff (hRun : tryGenericCallTypeArgs fuel p = some (none, q)) :
    q = p ↔ p.TypeArgsTraceless := by
  by_cases hLess : p.currentToken.type = .lessThan
  · have hBody : ((guessTypeArgs fuel).orElse (restoreAndFail p.saveState) >>= fun typeArgs =>
        clearError >>= fun _ => pure typeArgs) (p.startGuess p.reporting) = some (none, q) := by
      rw [tryGenericCallTypeArgs, Attempt.bind_of_some (Attempt.read_run p),
        if_neg (not_not.mpr hLess)] at hRun
      exact hRun
    rcases Attempt.bind_null hBody with hFail | ⟨typeArgs, q₁, -, hDone⟩
    · obtain ⟨q₁, hGuess, rfl⟩ := orElse_restore_null hFail
      have hStart : SameWindow p (p.startGuess p.reporting) := ⟨rfl, rfl, rfl⟩
      have hSource : q₁.lexer.source = p.lexer.source :=
        ((shrinks_guessTypeArgs fuel) hGuess).source
      obtain ⟨ts, hStream⟩ := stream_exists p
      have hFollows := follows_guessTypeArgs p.hasError fuel
      have hReads := hFollows.reads ts _ (hStream.of_sameWindow hStart) rfl
      rw [restoreState_eq_iff hSource, State.TypeArgsTraceless, or_iff_right (not_not.mpr hLess)]
      refine and_congr_right fun _ => ?_
      -- An answer other than a slip excludes one at any fuel.
      have hBreaks : guessTypeArgsReader p.hasError fuel ts ≠ .stuck →
          (p.BreaksOffInType ↔ guessTypeArgsReader p.hasError fuel ts = .slip) := by
        intro hMore
        constructor
        · rintro ⟨ts', fuel', hStream', hSlip⟩
          rw [hStream.unique hStream'] at hMore ⊢
          rw [Reader.Le.agree (guessTypeArgsReader_le _) hMore (by rw [hSlip]; nofun), hSlip]
        · exact fun hSlip => ⟨ts, fuel, hStream, hSlip⟩
      cases hRead : guessTypeArgsReader p.hasError fuel ts with
      | value typeArgs us =>
        rw [hRead] at hReads
        obtain ⟨q', hSome, -, -⟩ := hReads
        rw [hSome] at hGuess
        cases hGuess
      | absent us =>
        rw [hRead] at hReads hBreaks
        obtain ⟨q', hNone, -, hCalm⟩ := hReads
        rw [hNone] at hGuess
        cases hGuess
        have hQuiet : ¬ p.BreaksOffInType := fun h => by cases (hBreaks nofun).mp h
        exact iff_of_true hCalm.reporter (.inr (.inr hQuiet))
      | slip =>
        rw [hRead] at hReads hBreaks
        have hIff : q₁.reporter = p.reporter ↔ p.reporting = false ∨ p.reporter.isFull = true :=
          (hFollows.noted hGuess).reporter_eq_iff (hReads _ _ hGuess)
        rw [hIff]
        have hBreak : p.BreaksOffInType := (hBreaks nofun).mpr rfl
        constructor
        · rintro (hSilent | hFull)
          · exact .inl hSilent
          · exact .inr (.inl hFull)
        · rintro (hSilent | hFull | hQuiet)
          · exact .inl hSilent
          · exact .inr hFull
          · exact absurd hBreak hQuiet
      | stuck =>
        rw [hRead] at hReads
        rw [show guessTypeArgs fuel (p.startGuess p.reporting) = none from hReads] at hGuess
        cases hGuess
    · cases hDone
  · rw [tryGenericCallTypeArgs, Attempt.bind_of_some (Attempt.read_run p), if_pos hLess] at hRun
    cases hRun
    exact iff_of_true rfl (.inl hLess)

variable {ts : List Token}

theorem guessCastType_shorter {r : Option Text} (hRun : guessCastType fuel p = some (r, q))
    (hStream : Stream p ts) (hMore : p.currentToken.type ≠ .eof) :
    ∃ us, Stream q us ∧ us.length < ts.length := by
  have hRest : Fewer p.advance q := by
    have hBody : Shrinks (do
        let typeName ← typeAnnotationText fuel
        let error ← errorFlag
        let type ← currentType
        if error ∨ type ≠ .rparen then Attempt.null else pure typeName) :=
      shrinks_bind (shrinks_typeAnnotationText fuel) fun _ =>
        shrinks_bind shrinks_errorFlag fun _ => shrinks_bind shrinks_currentType fun _ =>
          .ite shrinks_null (shrinks_pure _)
    exact hBody hRun
  cases hStream with
  | done hEnd => exact absurd hEnd hMore
  | more _ hTail =>
    obtain ⟨us, hUs, hLe⟩ := hRest.length hTail
    exact ⟨us, hUs, Nat.lt_succ_of_le hLe⟩

theorem ne_of_shorter {us : List Token} (hStream : Stream p ts) (hOther : Stream q us)
    (hLess : us.length < ts.length) : q ≠ p := by
  rintro rfl
  rw [hStream.unique hOther] at hLess
  exact Nat.lt_irrefl _ hLess

theorem guessCastType_calm {typeName : Text} (hRun : guessCastType fuel p = some (some typeName, q))
    :
    q.hasError = false ∧ q.currentToken.type = .rparen := by
  obtain ⟨_, p₁, -, hRun⟩ := Attempt.bind_some hRun
  obtain ⟨_, p₂, -, hRun⟩ := Attempt.bind_some hRun
  obtain ⟨error, p₃, hError, hRun⟩ := Attempt.bind_some hRun
  obtain ⟨type, p₄, hType, hRun⟩ := Attempt.bind_some hRun
  cases hError
  cases hType
  split_ifs at hRun with hFail
  · cases hRun
  · cases hRun
    rw [not_or, not_not, Bool.not_eq_true] at hFail
    exact hFail

/-- What the operand of a cast leaves behind where it gives up: the snapshot where
the parentheses group, and fewer tokens where they do not. -/
theorem castOperand_null (hUnary : Shrinks unary) {typeName : Text}
    {q₁ : State} {us : List Token} (hStream : Stream q₁ us)
    (hRun : castOperand unary saved typeName q₁ = some (none, q)) :
    (endsGroup (headType us.tail) = true ∧ ∃ q₂ : State, q = q₂.restoreState saved ∧
      q₂.lexer.source = q₁.lexer.source ∧ q₂.reporter = q₁.reporter) ∨
    (endsGroup (headType us.tail) = false ∧ ∃ vs, Stream q vs ∧ vs.length ≤ us.length) := by
  have hBack : SameWindow q₁ { q₁ with reporting := saved.reporting } := ⟨rfl, rfl, rfl⟩
  have hStream' := hStream.of_sameWindow hBack
  obtain ⟨q₂, hq₂⟩ : ∃ q₂, q₂ = State.advance { q₁ with reporting := saved.reporting } := ⟨_, rfl⟩
  have hTail : Stream q₂ us.tail := hq₂ ▸ hStream'.tail
  have hFewer : Fewer q₁ q₂ := hq₂ ▸ fewer_trans _ _ _ (fewer_of_sameWindow hBack) (fewer_advance _)
  rw [show castOperand unary saved typeName q₁ =
      (if endsGroup q₂.currentToken.type = true then restoreAndFail saved else do
        clearError
        let operand ← unary
        pure (Node.castExpression typeName operand) : ParseM Node) q₂ from hq₂ ▸ rfl,
    ← hTail.headType_eq] at hRun
  split_ifs at hRun with hGroup
  · cases hRun
    have hType : headType us.tail ≠ .error := by
      intro hError
      rw [hError] at hGroup
      cases hGroup
    have hCalm := (advance_calm hStream').2 hType
    rw [← hq₂] at hCalm
    exact .inl ⟨hGroup, q₂, rfl, hFewer.source, hCalm.reporter⟩
  · have hOperand : Shrinks (do
        clearError
        let operand ← unary
        pure (Node.castExpression typeName operand)) :=
      shrinks_bind shrinks_clearError fun _ => shrinks_bind hUnary fun _ => shrinks_pure _
    obtain ⟨vs, hVs, hLe⟩ := (fewer_trans _ _ _ hFewer (hOperand hRun)).length hStream
    exact .inr ⟨by simpa using hGroup, vs, hVs, hLe⟩

theorem guessCastType_reads {r : Option Text} (hStream : Stream p ts)
    (hRun : guessCastType fuel p = some (r, q)) :
    guessCastReader p.hasError fuel ts ≠ .stuck ∧ (∀ typeName, r = some typeName → ∃ us,
        guessCastReader p.hasError fuel ts = .value typeName us ∧ Stream q us) ∧
      (r = none → ∀ typeName us, guessCastReader p.hasError fuel ts ≠ .value typeName us) := by
  have hFollows := follows_guessCastType p.hasError fuel
  have hReads := hFollows.reads ts p hStream rfl
  cases hRead : guessCastReader p.hasError fuel ts with
  | value typeName us =>
    rw [hRead] at hReads
    obtain ⟨q', hSome, hRest, -⟩ := hReads
    rw [hSome] at hRun
    cases hRun
    refine ⟨nofun, ?_, nofun⟩
    rintro _ ⟨rfl⟩
    exact ⟨us, rfl, hRest⟩
  | absent us =>
    rw [hRead] at hReads
    obtain ⟨q', hNone, -, -⟩ := hReads
    rw [hNone] at hRun
    cases hRun
    exact ⟨nofun, nofun, fun _ _ _ => nofun⟩
  | slip =>
    rw [hRead] at hReads
    refine ⟨nofun, ?_, fun _ _ _ => nofun⟩
    rintro typeName rfl
    -- The error flag is set, so the guess has failed.
    have hFlag := (hFollows.noted hRun).flag (hReads _ _ hRun)
    rw [(guessCastType_calm hRun).1] at hFlag
    cases hFlag
  | stuck =>
    rw [hRead] at hReads
    rw [show guessCastType fuel p = none from hReads] at hRun
    cases hRun

theorem cast_traceless_iff (hUnary : Shrinks unary)
    (hRun : castExpression unary fuel p = some (none, q)) : q = p ↔ p.CastTraceless := by
  rw [castExpression, Attempt.bind_of_some (Attempt.read_run p)] at hRun
  split_ifs at hRun with hParen hName
  · cases hRun
    exact iff_of_true rfl (.inl fun h => hParen h.1)
  · cases hRun
    refine iff_of_true rfl (.inl fun h => ?_)
    rcases h.2 with h | h | h <;> simp [h] at hName
  rw [not_not] at hParen
  have hTries : p.TriesCast := by
    refine ⟨hParen, ?_⟩
    simp only [Bool.and_eq_true, Bool.not_eq_true', decide_eq_true_eq] at hName
    by_contra hNone
    rw [not_or, not_or, Bool.not_eq_true, Bool.not_eq_true] at hNone
    exact hName ⟨⟨hNone.1, hNone.2.1⟩, hNone.2.2⟩
  rw [State.CastTraceless, or_iff_right (not_not.mpr hTries)]
  obtain ⟨ts, hStream⟩ := stream_exists p
  have hStream' : Stream (p.startGuess false) ts := hStream.of_sameWindow ⟨rfl, rfl, rfl⟩
  -- The reporter is off during the guess, and an answer at this fuel is the
  -- answer at any.
  have hGuessed : ∀ {r q₁}, guessCastType fuel (p.startGuess false) = some (r, q₁) →
      q₁.lexer.source = p.lexer.source ∧ q₁.reporter = p.reporter ∧
      (p.CommitsToCast ↔ ∃ typeName us, guessCastReader p.hasError fuel ts = .value typeName us ∧
        endsGroup (headType us.tail) = false) := by
    intro r q₁ hGuess
    have hMore := (guessCastType_reads hStream' hGuess).1
    refine ⟨((shrinks_guessCastType fuel) hGuess).source,
      ((follows_guessCastType p.hasError fuel).noted hGuess).silent (.inl rfl), ?_, ?_⟩
    · rintro ⟨ts', fuel', typeName, us, hTs', hValue, hGroup⟩
      rw [← hStream.unique hTs'] at hValue
      refine ⟨typeName, us, ?_, hGroup⟩
      rw [← hValue]
      exact Reader.Le.agree (guessCastReader_le p.hasError) hMore (by rw [hValue]; nofun)
    · rintro ⟨typeName, us, hValue, hGroup⟩
      exact ⟨ts, fuel, typeName, us, hStream, hValue, hGroup⟩
  rw [Attempt.bind_of_some (Attempt.update_run _ p)] at hRun
  rcases Attempt.bind_null hRun with hFail | ⟨typeName, q₁, hSome, hOperand⟩
  · -- The type did not fit: back to the snapshot, with nothing reported.
    obtain ⟨q₁, hGuess, rfl⟩ := orElse_restore_null hFail
    obtain ⟨hSource, hReporter, hCommits⟩ := hGuessed hGuess
    rw [restoreState_eq_iff hSource, hCommits]
    refine and_congr_right fun _ => iff_of_true hReporter ?_
    rintro ⟨typeName, us, hValue, -⟩
    exact (guessCastType_reads hStream' hGuess).2.2 rfl typeName us hValue
  · have hGuess : guessCastType fuel (p.startGuess false) = some (some typeName, q₁) := by
      rw [Attempt.orElse_run] at hSome
      split at hSome
      · cases hSome
      · exact hSome
    obtain ⟨hSource, hReporter, hCommits⟩ := hGuessed hGuess
    obtain ⟨us, hValue, hRest⟩ := (guessCastType_reads hStream' hGuess).2.1 typeName rfl
    have hOnly : p.CommitsToCast ↔ endsGroup (headType us.tail) = false := by
      rw [hCommits]
      constructor
      · rintro ⟨typeName', us', hValue', hGroup⟩
        rw [show guessCastReader p.hasError fuel ts = .value typeName us from hValue] at hValue'
        cases hValue'
        exact hGroup
      · exact fun hGroup => ⟨typeName, us, hValue, hGroup⟩
    rw [hOnly]
    rcases castOperand_null hUnary hRest hOperand with
      ⟨hGroup, q₂, rfl, hSource₂, hReporter₂⟩ | ⟨hGroup, vs, hVs, hLe⟩
    · rw [restoreState_eq_iff (hSource₂.trans hSource), hGroup]
      exact and_congr_right fun _ => iff_of_true (hReporter₂.trans hReporter) nofun
    · -- The operand gave up behind the cast: tokens are gone.
      have hMore : (p.startGuess false).currentToken.type ≠ .eof := by
        rw [show (p.startGuess false).currentToken.type = .lparen from hParen]
        decide
      obtain ⟨us', hUs', hLess⟩ := guessCastType_shorter hGuess hStream' hMore
      rw [hRest.unique hUs'] at hLe
      exact iff_of_false (ne_of_shorter hStream hVs (Nat.lt_of_le_of_lt hLe hLess))
        fun h => h.2 hGroup

/-- **What a failed guess leaves behind.** A cast that gives up leaves the parser
as it was exactly where it never started, or went back to a faithful snapshot
instead of on to an operand; type arguments that give up do exactly where they
never started, or the snapshot is faithful and no type broke off with a reporter
to record it. -/
theorem failed_guess_traceless_iff (operandFuel fuel : Nat) (p q : State) :
    (castExpression (unaryExpression operandFuel) fuel p = some (none, q) →
      (q = p ↔ p.CastTraceless)) ∧
    (tryGenericCallTypeArgs fuel p = some (none, q) → (q = p ↔ p.TypeArgsTraceless)) :=
  ⟨cast_traceless_iff (expressions_shrink operandFuel).1, tryGeneric_traceless_iff⟩

theorem exists_null {α : Type} {m : ParseM α} {p : State} {β : Type} [DecidableEq β]
    {f : State → β} {b : β} (hRun : (m p).map (fun r => (r.1.isNone, f r.2)) = some (true, b)) :
    ∃ q, m p = some (none, q) ∧ f q = b := by
  cases hEnd : m p with
  | none =>
    rw [hEnd] at hRun
    cases hRun
  | some r =>
    obtain ⟨value, q⟩ := r
    rw [hEnd] at hRun
    cases value with
    | some a => cases hRun
    | none =>
      cases hRun
      exact ⟨q, rfl, rfl⟩

/-- The parentheses of `(a + b)` are no cast and `a < b` is no call: both guesses
are taken back. -/
theorem failed_guess_traceless_group :
    (stateOf "(a + b)").CastTraceless ∧ (stateOf "a < b").advance.TypeArgsTraceless := by
  obtain ⟨q, hCast, hSame⟩ := @exists_null _ (castExpression (unaryExpression 6) 6)
    (stateOf "(a + b)") _ _ (fun q => q) (stateOf "(a + b)") (by decide)
  obtain ⟨q', hCall, hSame'⟩ := @exists_null _ (tryGenericCallTypeArgs 6)
    (stateOf "a < b").advance _ _ (fun q => q) (stateOf "a < b").advance (by decide)
  exact ⟨((failed_guess_traceless_iff 6 6 _ q).1 hCast).mp hSame,
    ((failed_guess_traceless_iff 6 6 _ q').2 hCall).mp hSame'⟩

/-- In `i < a[j]` the guess at type arguments breaks off behind the bracket, and
the error it reports stays. -/
theorem index_comparison_reported : ¬ ∀ (operandFuel fuel : Nat) (p q : State),
      (castExpression (unaryExpression operandFuel) fuel p = some (none, q) → q = p) ∧
        (tryGenericCallTypeArgs fuel p = some (none, q) → q = p) := by
  intro hTraceless
  obtain ⟨q, hRun, hReports⟩ := @exists_null _ (tryGenericCallTypeArgs 6)
    (stateOf "i < a[j];").advance _ _ (fun q => q.reporter.errors.length) 1 (by decide)
  rw [(hTraceless 6 6 _ q).2 hRun] at hReports
  exact absurd hReports (by decide)

end Mettle.Parser
