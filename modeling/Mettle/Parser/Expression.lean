import Mathlib.Algebra.Group.Nat.Defs
import Mettle.Parser.TypeAnnotation

/-!
# Mettle — the expression parser

`parser_parse_expression` and the functions it is built from, with the two
guesses that read ahead and may have to go back: whether `(` opens a cast, and
whether `<` after a name opens the type arguments of a call.

A `Node` is a tree as the parser builds it, with names, operators and type
annotations as text; the text of a literal with a decimal point stands for the
value that `atof` gives it.
-/

namespace Mettle.Parser

open Lexing Lib

/-- `ASTNode`, for the kinds of expressions. -/
inductive Node where
  | numberLiteral (value : Int) (radix : Nat)
  | floatLiteral (text : Text)
  | stringLiteral (value : Text)
  | importStr (filePath : Text)
  | identifier (name : Text)
  | binaryExpression (left : Node) (op : Text) (right : Node)
  | unaryExpression (op : Text) (operand : Node)
  | functionCall (functionName : Text) (typeArgs : List Text) (arguments : List Node)
  | methodCall (object : Node) (methodName : Text) (arguments : List Node)
  | memberAccess (object : Node) (member : Text)
  | indexExpression (array index : Node)
  | newExpression (typeName : Text)
  | castExpression (typeName : Text) (operand : Node)
  | matchExpression (expression : Node) (arms : List (Option Text × Option Text × Node))

-- ---
-- Operators
-- ---

/-- `parser_is_binary_operator`. -/
def isBinaryOperator : TokenType → Bool
  | .plus | .minus | .multiply | .divide | .percent | .equalsEquals | .notEquals
  | .lessThan | .lessEquals | .greaterThan | .greaterEquals | .andAnd | .orOr
  | .ampersand | .pipe | .caret | .lshift | .rshift | .dot => true
  | _ => false

/-- `parser_is_unary_operator`. -/
def isUnaryOperator : TokenType → Bool
  | .minus | .plus | .multiply | .ampersand | .tilde | .not => true
  | _ => false

/-- `parser_get_operator_precedence`. -/
def operatorPrecedence : TokenType → Nat
  | .dot => 13
  | .multiply | .divide | .percent => 11
  | .plus | .minus => 10
  | .lshift | .rshift => 9
  | .lessThan | .lessEquals | .greaterThan | .greaterEquals => 8
  | .equalsEquals | .notEquals => 7
  | .ampersand => 6
  | .caret => 5
  | .pipe => 4
  | .andAnd => 3
  | .orOr => 2
  | _ => 0

-- ---
-- Literals
-- ---

/-- A word of 64 bits as a `long long`. -/
def toLongLong (n : Nat) : Int := if n < 2 ^ 63 then n else n - Int.ofNat (2 ^ 64)

def hexDigitValue (c : Char) : Nat :=
  if c.isDigit then c.toNat - 48 else c.toLower.toNat - 87

/-- The value of digits in base `radix`, as `strtoull` and `strtoll` read them. -/
def digitsValue (radix : Nat) (digits : Text) : Nat :=
  digits.foldl (fun (value : Nat) c => value * radix + hexDigitValue c) 0

/-- The binary loop of `parser_parse_integer_literal_string`. -/
def binaryValue : Nat → Text → Except String Nat
  | value, [] => .ok value
  | value, c :: rest =>
    if c ≠ '0' ∧ c ≠ '1' then .error "Invalid binary literal"
    else if (2 ^ 64 - 1) / 2 < value then .error "Binary literal is out of range"
    else binaryValue (value * 2 + (c.toNat - 48)) rest

/-- `parser_parse_integer_literal_string`, on the text of a number token, which
starts with a digit: the value and the radix. -/
def parseIntegerLiteral (value : Text) : Except String (Int × Nat) :=
  match value with
  | '0' :: 'x' :: digits | '0' :: 'X' :: digits =>
    if digits.takeWhile isHexDigit = [] ∨ digits.takeWhile isHexDigit ≠ digits then
      .error "Invalid hexadecimal literal"
    else if 2 ^ 64 ≤ digitsValue 16 digits then .error "Hexadecimal literal is out of range"
    else .ok (toLongLong (digitsValue 16 digits), 16)
  | '0' :: 'b' :: digits | '0' :: 'B' :: digits =>
    if digits = [] then .error "Invalid binary literal"
    else (binaryValue 0 digits).map fun n => (toLongLong n, 2)
  | digits =>
    if digits.takeWhile isDigit = [] ∨ digits.takeWhile isDigit ≠ digits then
      .error "Invalid integer literal"
    else if 2 ^ 63 ≤ digitsValue 10 digits then .error "Decimal integer literal is out of range"
    else .ok (digitsValue 10 digits, 10)

/-- A number; the point makes it a float. -/
def numberLiteral (value : Text) : ParseM Node :=
  if '.' ∈ value then do
    advance
    pure (.floatLiteral value)
  else
    match parseIntegerLiteral value with
    | .error message => failWith message
    | .ok (n, radix) => do
      advance
      pure (.numberLiteral n radix)

-- ---
-- Match expressions
-- ---

def skipSeparators : Nat → ParseM Unit
  | 0 => .stuck
  | fuel + 1 => do
    let type ← currentType
    if type = .newline ∨ type = .semicolon then do
      advance
      skipSeparators fuel
    else pure ()

def matchBinding : ParseM (Option Text) := do
  let type ← currentType
  if type = .lparen then do
    advance
    let type ← currentType
    if !isIdentifierLike type then failWith "Expected binding name in match arm"
    else do
      let name ← currentValue
      advance
      expect .rparen
      pure (some name)
  else pure none

/-- What stands before the body of an arm: `default`, or a variant with its
binding. Giving up is the `break` out of the loop of arms. -/
def matchPattern (seenDefault : Bool) : ParseM (Option Text × Option Text) := do
  let type ← currentType
  if type = .kwDefault then
    if seenDefault then failWith "Only one default arm is allowed in match"
    else do
      advance
      expect .colon
      pure (none, none)
  else if type = .kwCase then do
    advance
    let type ← currentType
    if !isIdentifierLike type then failWith "Expected variant name after 'case' in match"
    else do
      let variantName ← currentValue
      advance
      let binding ← matchBinding
      expect .colon
      pure (some variantName, binding)
  else failWith "Expected 'case' or 'default' in match"

def matchArm (expression : ParseM Node) (seenDefault : Bool) :
    ParseM (Option Text × Option Text × Node) := do
  let pattern ← matchPattern seenDefault
  let body ← expression.orElse (unlessError "Expected value expression in match arm")
  let type ← currentType
  if type = .comma then do
    advance
    pure (pattern.1, pattern.2, body)
  else pure (pattern.1, pattern.2, body)

/-- The loop of `parser_parse_match_core`, for expressions. -/
def matchArms (expression : ParseM Node) : Nat → List (Option Text × Option Text × Node) →
      ParseM (List (Option Text × Option Text × Node))
  | 0, _ => .stuck
  | fuel + 1, arms => do
    let type ← currentType
    let error ← errorFlag
    if type = .rbrace ∨ type = .eof ∨ error then pure arms
    else do
      skipSeparators fuel
      let type ← currentType
      if type = .rbrace then pure arms
      else do
        let arm ← (matchArm expression (arms.any fun arm => arm.1.isNone)).attempt
        match arm with
        | none => pure arms
        | some arm => do
          skipSeparators fuel
          matchArms expression fuel (arms ++ [arm])

/-- `parser_parse_match_expression`. -/
def matchExpression (expression : ParseM Node) (fuel : Nat) : ParseM Node := do
  expect .kwMatch
  (expect .lparen).orElse (failWith "Expected '(' after 'match'")
  let scrutinee ← expression
  expect .rparen
  expect .lbrace
  let arms ← matchArms expression fuel []
  let error ← errorFlag
  if error then .null
  else do
    expect .rbrace
    pure (.matchExpression scrutinee arms)

-- ---
-- Primary expressions
-- ---

/-- `parser_parse_primary_expression`. -/
def primaryExpression (expression : ParseM Node) (fuel : Nat) : ParseM Node := do
  let type ← currentType
  if isIdentifierLike type then do
    let name ← currentValue
    advance
    pure (.identifier name)
  else match type with
    | .number => do
      let value ← currentValue
      numberLiteral value
    | .string => do
      let value ← currentValue
      advance
      pure (.stringLiteral value)
    | .kwImportStr => do
      advance
      let type ← currentType
      if type ≠ .string then failWith "Expected string literal after 'import_str'"
      else do
        let filePath ← currentValue
        advance
        pure (.importStr filePath)
    | .lparen => do
      advance
      -- The closing parenthesis is looked for even where the inside gave up.
      let inside ← expression.attempt
      expect .rparen
      match inside with
      | none => .null
      | some inside => pure inside
    | .kwMatch => matchExpression expression fuel
    | .kwThis => do
      advance
      pure (.identifier "this".toList)
    | .kwNew => do
      advance
      let type ← currentType
      if !isIdentifierLike type && !isTypeKeyword type && type ≠ .kwFn then
        failWith "Expected type name after 'new'"
      else do
        let typeName ← typeAnnotationText fuel
        pure (.newExpression typeName)
    | _ => failWith "Expected primary expression"

-- ---
-- Postfix expressions
-- ---

def callArguments (expression : ParseM Node) : Nat → List Node → ParseM (List Node)
  | 0, _ => .stuck
  | fuel + 1, arguments => do
    let argument ← expression.attempt
    match argument with
    | none => pure arguments
    | some argument => do
      let type ← currentType
      if type = .comma then do
        advance
        callArguments expression fuel (arguments ++ [argument])
      else if type = .rparen then pure (arguments ++ [argument])
      else do
        setError "Expected ',' or ')' in argument list"
        pure (arguments ++ [argument])

def argumentList (expression : ParseM Node) (fuel : Nat) : ParseM (List Node) := do
  let type ← currentType
  let arguments ←
    if type = .rparen then pure []
    else callArguments expression fuel []
  expect .rparen
  pure arguments

/-- The operand of `sizeof`, a type, as the name of an identifier. -/
def sizeofArgument (fuel : Nat) : ParseM (List Node) := do
  let type ← currentType
  if type = .rparen then failWith "Expected type name in sizeof"
  else do
    let typeName ← (typeAnnotationText fuel).orElse (unlessError "Expected type name in sizeof")
    let type ← currentType
    if type = .comma then failWith "sizeof expects exactly one type argument"
    else do
      expect .rparen
      pure [.identifier typeName]

/-- A call of `callee`, from behind its opening parenthesis. -/
def callOf (expression : ParseM Node) (fuel : Nat) (callee : Node) : ParseM Node :=
  match callee with
  | .identifier name => do
    let arguments ←
      if name = "sizeof".toList then sizeofArgument fuel else argumentList expression fuel
    pure (.functionCall name [] arguments)
  | .memberAccess object member => do
    let arguments ← argumentList expression fuel
    pure (.methodCall object member arguments)
  | _ => do
    let _ ← argumentList expression fuel
    .null

def memberName (message : String) : ParseM Text := do
  let type ← currentType
  if type ≠ .identifier then failWith message
  else do
    let name ← currentValue
    advance
    pure name

/-- The loop of `parser_try_parse_generic_call_type_args`, up to a `>` or the end
of the text; null where it clears `success`. -/
def typeArgsLoop : Nat → List Text → ParseM (List Text)
  | 0, _ => .stuck
  | fuel + 1, typeArgs => do
    let type ← currentType
    if type = .greaterThan ∨ type = .eof then pure typeArgs
    else do
      if typeArgs = [] then pure ()
      else if type ≠ .comma then .null
      else advance
      let arg ← typeAnnotationText fuel
      let error ← errorFlag
      if error then .null else typeArgsLoop fuel (typeArgs ++ [arg])

/-- The type arguments from the `<` on, up to the `(` of a call; null where the
guess fails. -/
def guessTypeArgs (fuel : Nat) : ParseM (List Text) := do
  advance
  let typeArgs ← typeArgsLoop fuel []
  let type ← currentType
  if type = .greaterThan then do
    advance
    let type ← currentType
    if type = .lparen then pure typeArgs else .null
  else .null

def State.startGuess (p : State) (reporting : Bool) : State :=
  { p with errorMessage := none, reporting := reporting }

/-- `parser_restore_state`, and null. -/
def restoreAndFail {α : Type} (saved : SavedState) : ParseM α := do
  .update fun p => p.restoreState saved
  .null

def clearError : ParseM Unit :=
  .update fun p => { p with hasError := false, errorMessage := none }

/-- `parser_try_parse_generic_call_type_args`: the type arguments, with the
opening parenthesis of the call as the current token, or null. -/
def tryGenericCallTypeArgs (fuel : Nat) : ParseM (List Text) := do
  let p ← .read
  if p.currentToken.type ≠ .lessThan then .null
  else do
    .update fun p => p.startGuess p.reporting
    let typeArgs ← (guessTypeArgs fuel).orElse (restoreAndFail p.saveState)
    clearError
    pure typeArgs

/-- One round of the loop of `parser_parse_postfix_expression` that is no generic
call; `loop` is the rest of it. -/
def postfixPlain (expression : ParseM Node) (fuel : Nat) (node : Node)
    (loop : Node → ParseM Node) : ParseM Node := do
  let type ← currentType
  match type with
  | .lparen => do
    advance
    let call ← callOf expression fuel node
    loop call
  | .dot => do
    advance
    let member ← memberName "Expected member name after '.'"
    loop (.memberAccess node member)
  | .arrow => do
    advance
    let member ← memberName "Expected member name after '->'"
    loop (.memberAccess (.unaryExpression ['*'] node) member)
  | .lbracket => do
    advance
    let index ← expression
    expect .rbracket
    loop (.indexExpression node index)
  | _ => pure node

/-- The loop of `parser_parse_postfix_expression`. -/
def postfixLoop (expression : ParseM Node) : Nat → Node → ParseM Node
  | 0, _ => .stuck
  | fuel + 1, .identifier name => do
    let typeArgs ← (tryGenericCallTypeArgs fuel).attempt
    match typeArgs with
    | some typeArgs => do
      advance
      let arguments ← argumentList expression fuel
      postfixLoop expression fuel (.functionCall name typeArgs arguments)
    | none => postfixPlain expression fuel (.identifier name) (postfixLoop expression fuel)
  | fuel + 1, node => postfixPlain expression fuel node (postfixLoop expression fuel)

/-- `parser_parse_postfix_expression`. -/
def postfixExpression (expression : ParseM Node) (fuel : Nat) : ParseM Node := do
  let primary ← primaryExpression expression fuel
  postfixLoop expression fuel primary

-- ---
-- Casts and unary expressions
-- ---

/-- What follows `(name)` where the parentheses are not those of a cast. -/
def endsGroup (type : TokenType) : Bool :=
  type = .rparen || type = .comma || type = .semicolon || type = .eof ||
    (isBinaryOperator type && !isUnaryOperator type)

/-- The type between the parentheses of a cast, from the `(` to the `)`; null
where there is none. -/
def guessCastType (fuel : Nat) : ParseM Text := do
  advance
  let typeName ← typeAnnotationText fuel
  let error ← errorFlag
  let type ← currentType
  if error ∨ type ≠ .rparen then .null else pure typeName

/-- The rest of `parser_parse_cast_expression` from the closing parenthesis on,
with the reporter back. -/
def castOperand (unary : ParseM Node) (saved : SavedState) (typeName : Text) :
    ParseM Node := do
  .update fun q => { q with reporting := saved.reporting }
  advance
  let type ← currentType
  if endsGroup type then restoreAndFail saved
  else do
    clearError
    let operand ← unary
    pure (.castExpression typeName operand)

/-- `parser_parse_cast_expression`, with `unary` for its operand. -/
def castExpression (unary : ParseM Node) (fuel : Nat) : ParseM Node := do
  let p ← .read
  if p.currentToken.type ≠ .lparen then .null
  else if !isTypeKeyword p.peekToken.type && !isIdentifierLike p.peekToken.type &&
      p.peekToken.type ≠ .kwFn then .null
  else do
    .update fun p => p.startGuess false
    let typeName ← (guessCastType fuel).orElse (restoreAndFail p.saveState)
    castOperand unary p.saveState typeName

/-- `parser_parse_unary_expression`, with `unary` and `expression` for what is
inside. -/
def unaryWith (unary expression : ParseM Node) (fuel : Nat) : ParseM Node :=
  -- Without an opening parenthesis the cast gives up at once.
  (castExpression unary fuel).orElse do
    let type ← currentType
    if isUnaryOperator type then do
      let op ← currentValue
      advance
      let operand ← unary
      pure (.unaryExpression op operand)
    else postfixExpression expression fuel

-- ---
-- Binary expressions
-- ---

/-- The loop of `parser_parse_binary_expression`; `binary` reads the right
operand at a least precedence. -/
def binaryLoop (binary : Nat → ParseM Node) (minPrecedence : Nat) : Nat → Node → ParseM Node
  | 0, _ => .stuck
  | fuel + 1, left => do
    let type ← currentType
    if isBinaryOperator type ∧ minPrecedence ≤ operatorPrecedence type then do
      let op ← currentValue
      advance
      let right ← binary (operatorPrecedence type + 1)
      binaryLoop binary minPrecedence fuel (.binaryExpression left op right)
    else pure left

mutual

/-- `parser_parse_unary_expression`. -/
def unaryExpression : Nat → ParseM Node
  | 0 => .stuck
  | fuel + 1 => unaryWith (unaryExpression fuel) (binaryExpression fuel 0) fuel

/-- `parser_parse_binary_expression`. -/
def binaryExpression : Nat → Nat → ParseM Node
  | 0, _ => .stuck
  | fuel + 1, minPrecedence => do
    let left ← unaryExpression fuel
    binaryLoop (binaryExpression fuel) minPrecedence fuel left

end

end Mettle.Parser
