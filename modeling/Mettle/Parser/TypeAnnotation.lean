import Mettle.Parser.Reading

/-!
# Mettle — type annotations

`parser_parse_type_annotation`: a name or a function-pointer type, then `.name`
qualifiers, one list of type arguments, stars, and at most one array size. The
result is the annotation's text, flattened.

The recursion and the loops take fuel. `typeAnnotationReader` is the annotation
on the tokens alone.
-/

namespace Mettle.Parser

open Lexing Lib

def unlessError {α : Type} (message : String) : ParseM α := do
  let error ← errorFlag
  if error then .null else failWith message

-- ---
-- Lists of types
-- ---

/-- The two loops of `parser_parse_type_annotation` over a list of types: up to
`close`, the texts joined with commas. `inner` reads one type. -/
def typeList (inner : ParseM Text) (close : TokenType) (noComma noType : String) :
    Nat → Bool → Text → ParseM Text
  | 0, _, _ => .stuck
  | fuel + 1, first, buffer => do
    let type ← currentType
    let error ← errorFlag
    if type = close ∨ type = .eof ∨ error then pure buffer
    else do
      let buffer ←
        if first then pure buffer
        else if type ≠ .comma then failWith noComma
        else do
          advance
          pure (buffer ++ [','])
      let one ← inner.orElse (unlessError noType)
      typeList inner close noComma noType fuel false (buffer ++ one)

def typeParameters (inner : ParseM Text) (fuel : Nat) : ParseM Text :=
  typeList inner .rparen "Expected ',' or ')' in function pointer parameter list"
    "Expected type in function pointer parameter list" fuel true []

def typeArgumentList (inner : ParseM Text) (fuel : Nat) : ParseM Text :=
  typeList inner .greaterThan "Expected ',' or '>' in type argument list"
    "Expected type in type argument list" fuel true []

-- ---
-- The parts of an annotation
-- ---

/-- `fn(param_types) -> return_type`, from the `fn` on. -/
def functionPointerType (inner : ParseM Text) (fuel : Nat) : ParseM Text := do
  advance
  (expect .lparen).orElse (failWith "Expected '(' after 'fn' in function pointer type")
  let params ← typeParameters inner fuel
  expect .rparen
  (expect .arrow).orElse (failWith "Expected '->' after ')' in function pointer type")
  let ret ← inner.orElse (unlessError "Expected return type after '->' in function pointer type")
  pure ("fn(".toList ++ params ++ ")->".toList ++ ret)

def typeBase (inner : ParseM Text) (fuel : Nat) : ParseM Text := do
  let type ← currentType
  if type = .kwFn then functionPointerType inner fuel
  else if !isTypeKeyword type && !isIdentifierLike type then .null
  else do
    let name ← currentValue
    advance
    pure name

/-- The `.name` qualifiers. -/
def typeQualifiers : Nat → Text → ParseM Text
  | 0, _ => .stuck
  | fuel + 1, name => do
    let type ← currentType
    if type = .dot then do
      advance
      let part ← currentType
      if !isIdentifierLike part && !isTypeKeyword part then
        failWith "Expected type name after '.'"
      else do
        let part ← currentValue
        advance
        typeQualifiers fuel (name ++ ['.'] ++ part)
    else pure name

def typeArguments (inner : ParseM Text) (fuel : Nat) (name : Text) : ParseM Text := do
  let type ← currentType
  if type = .lessThan then do
    advance
    let args ← typeArgumentList inner fuel
    expect .greaterThan
    pure (name ++ ['<'] ++ args ++ ['>'])
  else pure name

def typeStars : Nat → Text → ParseM Text
  | 0, _ => .stuck
  | fuel + 1, name => do
    let type ← currentType
    if type = .multiply then do
      advance
      typeStars fuel (name ++ ['*'])
    else pure name

def typeArraySize (name : Text) : ParseM Text := do
  let type ← currentType
  if type ≠ .lbracket then pure name
  else do
    advance
    let size ← currentType
    if size ≠ .number then failWith "Expected array size after '['"
    else do
      let size ← currentValue
      advance
      expect .rbracket
      pure (name ++ ['['] ++ size ++ [']'])

/-- `parser_parse_type_annotation`, with `inner` for the types inside. -/
def annotationWith (inner : ParseM Text) (fuel : Nat) : ParseM Text := do
  let base ← typeBase inner fuel
  let name ← typeQualifiers fuel base
  let applied ← typeArguments inner fuel name
  let pointed ← typeStars fuel applied
  typeArraySize pointed

/-- `parser_parse_type_annotation`. -/
def typeAnnotationText : Nat → ParseM Text
  | 0 => .stuck
  | fuel + 1 => annotationWith (typeAnnotationText fuel) fuel

-- ---
-- The annotation on the tokens alone
-- ---

def missingReader (bad : Bool) : Reader Text := do
  let error ← .flag bad
  if error then .absent else .slip

def typeListReader (bad : Bool) (inner : Reader Text) (close : TokenType) :
    Nat → Bool → Text → Reader Text
  | 0, _, _ => .stuck
  | fuel + 1, first, buffer => do
    let type ← .type
    let error ← .flag bad
    if type = close ∨ type = .eof ∨ error then pure buffer
    else do
      let buffer ←
        if first then pure buffer
        else if type ≠ .comma then .slip
        else do
          .take
          pure (buffer ++ [','])
      let one ← inner.orElse (missingReader bad)
      typeListReader bad inner close fuel false (buffer ++ one)

def functionPointerReader (bad : Bool) (inner : Reader Text) (fuel : Nat) : Reader Text := do
  .take
  .expect .lparen
  let params ← typeListReader bad inner .rparen fuel true []
  .expect .rparen
  .expect .arrow
  let ret ← inner.orElse (missingReader bad)
  pure ("fn(".toList ++ params ++ ")->".toList ++ ret)

def typeBaseReader (bad : Bool) (inner : Reader Text) (fuel : Nat) : Reader Text := do
  let type ← .type
  if type = .kwFn then functionPointerReader bad inner fuel
  else if !isTypeKeyword type && !isIdentifierLike type then .absent
  else do
    let name ← .text
    .take
    pure name

def typeQualifiersReader : Nat → Text → Reader Text
  | 0, _ => .stuck
  | fuel + 1, name => do
    let type ← .type
    if type = .dot then do
      .take
      let part ← .type
      if !isIdentifierLike part && !isTypeKeyword part then .slip
      else do
        let part ← .text
        .take
        typeQualifiersReader fuel (name ++ ['.'] ++ part)
    else pure name

def typeArgumentsReader (bad : Bool) (inner : Reader Text) (fuel : Nat) (name : Text) :
    Reader Text := do
  let type ← .type
  if type = .lessThan then do
    .take
    let args ← typeListReader bad inner .greaterThan fuel true []
    .expect .greaterThan
    pure (name ++ ['<'] ++ args ++ ['>'])
  else pure name

def typeStarsReader : Nat → Text → Reader Text
  | 0, _ => .stuck
  | fuel + 1, name => do
    let type ← .type
    if type = .multiply then do
      .take
      typeStarsReader fuel (name ++ ['*'])
    else pure name

def typeArraySizeReader (name : Text) : Reader Text := do
  let type ← .type
  if type ≠ .lbracket then pure name
  else do
    .take
    let size ← .type
    if size ≠ .number then .slip
    else do
      let size ← .text
      .take
      .expect .rbracket
      pure (name ++ ['['] ++ size ++ [']'])

def readerWith (bad : Bool) (inner : Reader Text) (fuel : Nat) : Reader Text := do
  let base ← typeBaseReader bad inner fuel
  let name ← typeQualifiersReader fuel base
  let applied ← typeArgumentsReader bad inner fuel name
  let pointed ← typeStarsReader fuel applied
  typeArraySizeReader pointed

/-- An annotation on the tokens alone, with the error flag `bad`. -/
def typeAnnotationReader (bad : Bool) : Nat → Reader Text
  | 0 => .stuck
  | fuel + 1 => readerWith bad (typeAnnotationReader bad fuel) fuel

-- ---
-- The parser follows the reader
-- ---

section Follows

variable {bad : Bool} {inner : ParseM Text} {reader : Reader Text}

theorem follows_missing (message : String) :
    Follows bad (unlessError message : ParseM Text) (missingReader bad) := by
  refine follows_errorFlag.bind fun error => ?_
  split
  · exact follows_null
  · exact follows_failWith message

theorem follows_typeList (hInner : Follows bad inner reader) (close : TokenType)
    (noComma noType : String) (fuel : Nat) (first : Bool) (buffer : Text) :
    Follows bad (typeList inner close noComma noType fuel first buffer)
      (typeListReader bad reader close fuel first buffer) := by
  induction fuel generalizing first buffer with
  | zero => exact follows_stuck
  | succ fuel ih =>
    refine .byType fun t => .always (follows_errorFlag.bind fun error => ?_)
    split_ifs
    · exact follows_pure buffer
    · exact (follows_pure buffer).bind fun _ =>
        (hInner.orElse (follows_missing noType)).bind fun _ => ih ..
    · exact (follows_failWith noComma).bind fun _ =>
        (hInner.orElse (follows_missing noType)).bind fun _ => ih ..
    · exact follows_advance.bind fun _ => (follows_pure _).bind fun _ =>
        (hInner.orElse (follows_missing noType)).bind fun _ => ih ..

theorem follows_expect_orElse (expected : TokenType) (message : String) :
    Follows bad ((expect expected).orElse (failWith message)) (Reader.expect expected) := by
  have hBoth : Follows bad ((expect expected).orElse (failWith message))
      ((Reader.expect expected).orElse .slip) :=
    (follows_expect expected).orElse (follows_failWith message)
  have hSame : (Reader.expect expected).orElse .slip = Reader.expect expected := by
    funext ts
    rw [Reader.orElse, Reader.expect, Reader.type_bind]
    split_ifs
    · rw [Reader.take]
      split_ifs <;> rfl
    · rfl
  rw [← hSame]
  exact hBoth

theorem follows_functionPointer (hInner : Follows bad inner reader) (fuel : Nat) :
    Follows bad (functionPointerType inner fuel) (functionPointerReader bad reader fuel) :=
  follows_advance.bind fun _ =>
    (follows_expect_orElse ..).bind fun _ =>
      (follows_typeList hInner ..).bind fun _ =>
        (follows_expect _).bind fun _ =>
          (follows_expect_orElse ..).bind fun _ =>
            (hInner.orElse (follows_missing _)).bind fun _ => follows_pure _

theorem follows_typeBase (hInner : Follows bad inner reader) (fuel : Nat) :
    Follows bad (typeBase inner fuel) (typeBaseReader bad reader fuel) := by
  refine .byType fun t => ?_
  split_ifs with hFn hWord
  · exact .always (follows_functionPointer hInner fuel)
  · exact .always follows_null
  · refine .value ?_ fun _ => follows_advance.bind fun _ => follows_pure _
    rintro rfl
    exact hWord rfl

theorem follows_typeQualifiers (fuel : Nat) (name : Text) :
    Follows bad (typeQualifiers fuel name) (typeQualifiersReader fuel name) := by
  induction fuel generalizing name with
  | zero => exact follows_stuck
  | succ fuel ih =>
    refine .byType fun t => .always ?_
    split_ifs
    · refine follows_advance.bind fun _ => .byType fun part => ?_
      split_ifs with hWord
      · exact .always (follows_failWith _)
      · refine .value ?_ fun _ => follows_advance.bind fun _ => ih _
        rintro rfl
        exact hWord rfl
    · exact follows_pure name

theorem follows_typeArguments (hInner : Follows bad inner reader) (fuel : Nat) (name : Text) :
    Follows bad (typeArguments inner fuel name) (typeArgumentsReader bad reader fuel name) := by
  refine .byType fun t => .always ?_
  split_ifs
  · exact follows_advance.bind fun _ =>
      (follows_typeList hInner ..).bind fun _ =>
        (follows_expect _).bind fun _ => follows_pure _
  · exact follows_pure name

theorem follows_typeStars (fuel : Nat) (name : Text) :
    Follows bad (typeStars fuel name) (typeStarsReader fuel name) := by
  induction fuel generalizing name with
  | zero => exact follows_stuck
  | succ fuel ih =>
    refine .byType fun t => .always ?_
    split_ifs
    · exact follows_advance.bind fun _ => ih _
    · exact follows_pure name

theorem follows_typeArraySize (name : Text) :
    Follows bad (typeArraySize name) (typeArraySizeReader name) := by
  refine .byType fun t => .always ?_
  split_ifs
  · exact follows_pure name
  · refine follows_advance.bind fun _ => .byType fun size => ?_
    split_ifs with hSize
    · exact .always (follows_failWith _)
    · refine .value ?_ fun _ =>
        follows_advance.bind fun _ => (follows_expect _).bind fun _ => follows_pure _
      rintro rfl
      exact hSize (by decide)

/-- **The parser reads an annotation by the tokens alone**, and raises an error
exactly where the reader slips. -/
theorem typeAnnotationText_follows (bad : Bool) (fuel : Nat) :
    Follows bad (typeAnnotationText fuel) (typeAnnotationReader bad fuel) := by
  induction fuel with
  | zero => exact follows_stuck
  | succ fuel ih =>
    exact (follows_typeBase ih fuel).bind fun _ =>
      (follows_typeQualifiers fuel _).bind fun _ =>
        (follows_typeArguments ih fuel _).bind fun _ =>
          (follows_typeStars fuel _).bind fun _ => follows_typeArraySize _

end Follows

-- ---
-- More fuel changes no answer
-- ---

section Fuel

open Reader (Le)

variable {bad : Bool} {inner inner' : Reader Text}

theorem typeListReader_le (hInner : Le inner inner') (close : TokenType) (fuel : Nat)
    (first : Bool) (buffer : Text) :
    Le (typeListReader bad inner close fuel first buffer)
      (typeListReader bad inner' close (fuel + 1) first buffer) := by
  induction fuel generalizing first buffer with
  | zero => exact .stuck _
  | succ fuel ih =>
    refine .bind (.refl _) fun type => .bind (.refl _) fun error => .ite (.refl _) ?_
    have hNext : ∀ buffer, Le (inner.orElse (missingReader bad) >>= fun one =>
          typeListReader bad inner close fuel false (buffer ++ one))
        (inner'.orElse (missingReader bad) >>= fun one =>
          typeListReader bad inner' close (fuel + 1) false (buffer ++ one)) := fun buffer =>
      .bind (.orElse hInner (.refl _)) fun _ => ih _ _
    split_ifs
    · exact hNext buffer
    · exact .bind (.refl _) hNext
    · exact .bind (.refl _) fun _ => hNext _

theorem typeBaseReader_le (hInner : Le inner inner') (fuel : Nat) :
    Le (typeBaseReader bad inner fuel) (typeBaseReader bad inner' (fuel + 1)) := by
  refine .bind (.refl _) fun type => .ite ?_ (.refl _)
  exact .bind (.refl _) fun _ => .bind (.refl _) fun _ =>
    .bind (typeListReader_le hInner _ _ _ _) fun _ => .bind (.refl _) fun _ =>
      .bind (.refl _) fun _ => .bind (.orElse hInner (.refl _)) fun _ => .refl _

theorem typeQualifiersReader_le (fuel : Nat) (name : Text) :
    Le (typeQualifiersReader fuel name) (typeQualifiersReader (fuel + 1) name) := by
  induction fuel generalizing name with
  | zero => exact .stuck _
  | succ fuel ih =>
    refine .bind (.refl _) fun type => .ite ?_ (.refl _)
    refine .bind (.refl _) fun _ => .bind (.refl _) fun part => .ite (.refl _) ?_
    exact .bind (.refl _) fun _ => .bind (.refl _) fun _ => ih _

theorem typeArgumentsReader_le (hInner : Le inner inner') (fuel : Nat) (name : Text) :
    Le (typeArgumentsReader bad inner fuel name) (typeArgumentsReader bad inner' (fuel + 1) name) :=
  .bind (.refl _) fun _ => .ite
    (.bind (.refl _) fun _ => .bind (typeListReader_le hInner _ _ _ _) fun _ => .refl _) (.refl _)

theorem typeStarsReader_le (fuel : Nat) (name : Text) :
    Le (typeStarsReader fuel name) (typeStarsReader (fuel + 1) name) := by
  induction fuel generalizing name with
  | zero => exact .stuck _
  | succ fuel ih =>
    exact .bind (.refl _) fun _ => .ite (.bind (.refl _) fun _ => ih _) (.refl _)

theorem typeAnnotationReader_le (bad : Bool) (fuel : Nat) :
    Le (typeAnnotationReader bad fuel) (typeAnnotationReader bad (fuel + 1)) := by
  induction fuel with
  | zero => exact .stuck _
  | succ fuel ih =>
    exact .bind (typeBaseReader_le ih fuel) fun _ =>
      .bind (typeQualifiersReader_le fuel _) fun _ =>
        .bind (typeArgumentsReader_le ih fuel _) fun _ =>
          .bind (typeStarsReader_le fuel _) fun _ => .refl _

end Fuel

end Mettle.Parser
