import Mathlib.Data.List.Induction
import Mathlib.Data.Nat.Digits.Defs
import Mettle.Parser.Expression

/-!
# Mettle — number literals

How the text of a number comes to a literal: `lexer_lex_number` takes a run of digits as a token,
and the parser reads that token. The lexer takes any number of points into the run and does not look at
what stands behind it, and the parser hands a run with a point to `atof`, which reads as much of it
as it can. So `1.2.3` is 1.2, and `12ab` is two tokens.
-/

namespace Mettle.Parser

open Lexing Lib List

-- ---
-- Numbers
-- ---

/-- The base that the first characters give. -/
def radixOf : Text → Nat
  | '0' :: c :: _ => if c = 'x' ∨ c = 'X' then 16 else if c = 'b' ∨ c = 'B' then 2 else 10
  | _ => 10

def digitsOf (text : Text) : Text := if radixOf text = 10 then text else text.drop 2

def isDigitOf (radix : Nat) (c : Char) : Bool :=
  if radix = 16 then isHexDigit c else if radix = 2 then c = '0' || c = '1' else isDigit c

def limitOf (radix : Nat) : Nat := if radix = 10 then 2 ^ 63 else 2 ^ 64

def positional (radix : Nat) (digits : Text) : Nat :=
  Nat.ofDigits radix (digits.reverse.map hexDigitValue)

structure IsInteger (text : Text) : Prop where
  nonempty : digitsOf text ≠ []
  digits : ∀ c ∈ digitsOf text, isDigitOf (radixOf text) c = true
  fits : positional (radixOf text) (digitsOf text) < limitOf (radixOf text)

structure IsDecimalPoint (text : Text) : Prop where
  first : ∃ c rest, text = c :: rest ∧ isDigit c = true
  others : ∀ c ∈ text, isDigit c = true ∨ c = '.'
  point : text.count '.' = 1

def numberText (rest : Text) : Text := rest.takeWhile fun c => c.isAlphanum || c = '.'

-- ---
-- Reading a number
-- ---

def Accepted (lx : Lexer) (text : Text) (node : Node) : Prop :=
  (lexNumber lx).1.type = .number ∧ (lexNumber lx).1.value = some text ∧
    (lexNumber lx).2 = lx.skip text.length ∧
    ∀ (p : State) (expression : ParseM Node) (fuel : Nat), p.currentToken = (lexNumber lx).1 →
      primaryExpression expression fuel p = some (some node, p.advance)

/-- The lexer makes an error token, which the parser reports as soon as it comes to it, or the
parser reports an error instead of the literal. -/
def Reported (lx : Lexer) : Prop :=
  ((lexNumber lx).1.type = .error ∧ ∀ p : State, p.peekToken = (lexNumber lx).1 →
    p.currentToken.type ≠ .eof → p.advance.hasError = true) ∨
  ((lexNumber lx).1.type = .number ∧ ∀ (p : State) (expression : ParseM Node) (fuel : Nat),
    p.currentToken = (lexNumber lx).1 →
    ∃ message, primaryExpression expression fuel p = some (none, p.setError message))

/-- The number at the start of the text is read exactly: what is written as a number that fits
comes to a literal with its value, and everything else to an error. -/
structure ReadsNumber (lx : Lexer) : Prop where
  integer : IsInteger (numberText lx.rest) → ∃ v : Int,
    Accepted lx (numberText lx.rest) (.numberLiteral v (radixOf (numberText lx.rest))) ∧
    -2 ^ 63 ≤ v ∧ v < 2 ^ 63 ∧
    v % 2 ^ 64 = positional (radixOf (numberText lx.rest)) (digitsOf (numberText lx.rest))
  decimalPoint : IsDecimalPoint (numberText lx.rest) →
    Accepted lx (numberText lx.rest) (.floatLiteral (numberText lx.rest))
  other : ¬ IsInteger (numberText lx.rest) → ¬ IsDecimalPoint (numberText lx.rest) → Reported lx

-- ---
-- Values
-- ---

theorem positional_append (radix : Nat) (digits : Text) (c : Char) :
    positional radix (digits ++ [c]) = positional radix digits * radix + hexDigitValue c := by
  rw [positional, reverse_append, reverse_singleton, singleton_append,
    map_cons, Nat.ofDigits_cons, ← positional, Nat.mul_comm, Nat.add_comm]

theorem digitsValue_eq (radix : Nat) (digits : Text) :
    digitsValue radix digits = positional radix digits := by
  induction digits using reverseRecOn with
  | nil => rfl
  | append_singleton digits c ih =>
    rw [positional_append, ← ih, digitsValue, foldl_append]
    rfl

theorem toLongLong_spec {n : Nat} (h : n < 2 ^ 64) :
    -2 ^ 63 ≤ toLongLong n ∧ toLongLong n < 2 ^ 63 ∧ toLongLong n % 2 ^ 64 = n := by
  unfold toLongLong
  split
  · omega
  · simp only [Int.ofNat_eq_natCast]
    omega

variable {c : Char}

theorem hexDigitValue_bit (h : c = '0' ∨ c = '1') :
    hexDigitValue c = c.toNat - 48 ∧ c.toNat - 48 ≤ 1 := by
  rcases h with rfl | rfl <;> decide

theorem foldl_le (value : Nat) (digits : Text) :
    value ≤ digits.foldl (fun (value : Nat) c => value * 2 + hexDigitValue c) value := by
  induction digits generalizing value with
  | nil => exact Nat.le_refl value
  | cons c digits ih =>
    have hRest := ih (value * 2 + hexDigitValue c)
    rw [foldl_cons]
    omega

theorem binaryValue_ok_iff {value : Nat} (hValue : value < 2 ^ 64) (digits : Text) (n : Nat) :
    binaryValue value digits = .ok n ↔ (∀ c ∈ digits, c = '0' ∨ c = '1') ∧
      n = digits.foldl (fun (value : Nat) c => value * 2 + hexDigitValue c) value ∧
      n < 2 ^ 64 := by
  induction digits generalizing value with
  | nil =>
    rw [binaryValue, Except.ok.injEq, foldl_nil]
    constructor
    · rintro rfl
      exact ⟨fun c hc => absurd hc not_mem_nil, rfl, hValue⟩
    · rintro ⟨-, rfl, -⟩
      rfl
  | cons c digits ih =>
    rw [binaryValue, foldl_cons]
    by_cases hBit : c = '0' ∨ c = '1'
    · obtain ⟨hDigit, hOne⟩ := hexDigitValue_bit hBit
      rw [if_neg (by rwa [← not_or, not_not])]
      split
      · rename_i hLarge
        constructor
        · exact fun h => nomatch h
        · rintro ⟨-, rfl, hFits⟩
          have hGrows := foldl_le (value * 2 + hexDigitValue c) digits
          omega
      · rw [hDigit, ih (by omega), forall_mem_cons]
        exact ⟨fun h => ⟨⟨hBit, h.1⟩, h.2⟩, fun h => ⟨h.1.2, h.2⟩⟩
    · rw [if_pos (by rwa [← not_or])]
      exact ⟨fun h => (nomatch h), fun h => absurd (h.1 c mem_cons_self) hBit⟩

variable {r : Nat} {p : Char → Bool} {text : Text}

section Parsing

variable {digits : Text} {v : Int} {radix : Nat}

theorem isInteger_iff (hRadix : radixOf text = r) (hDigits : digitsOf text = digits) :
    IsInteger text ↔ (digits ≠ [] ∧ ∀ c ∈ digits, isDigitOf r c = true) ∧
      positional r digits < limitOf r := by
  subst hRadix hDigits
  exact ⟨fun h => ⟨⟨h.nonempty, h.digits⟩, h.fits⟩, fun h => ⟨h.1.1, h.1.2, h.2⟩⟩

theorem wholeRun_iff : ¬ (digits.takeWhile p = [] ∨ digits.takeWhile p ≠ digits) ↔
      digits ≠ [] ∧ ∀ c ∈ digits, p c = true := by
  rw [not_or, not_not, takeWhile_eq_self_iff]
  constructor
  · rintro ⟨hSome, hAll⟩
    rw [takeWhile_eq_self_iff.mpr hAll] at hSome
    exact ⟨hSome, hAll⟩
  · rintro ⟨hSome, hAll⟩
    refine ⟨?_, hAll⟩
    rwa [takeWhile_eq_self_iff.mpr hAll]

theorem parseRun_ok_iff {limit : Nat} {value : Int} (message message' : String)
    (hDigits : p = isDigitOf r) (hLimit : limit = limitOf r)
    (hValue : positional r digits < limit → value = toLongLong (positional r digits)) :
    (if digits.takeWhile p = [] ∨ digits.takeWhile p ≠ digits then .error message
      else if limit ≤ digitsValue r digits then .error message'
      else .ok (value, r) : Except String (Int × Nat)) = .ok (v, radix) ↔
      ((digits ≠ [] ∧ ∀ c ∈ digits, isDigitOf r c = true) ∧ positional r digits < limitOf r) ∧
        radix = r ∧ v = toLongLong (positional r digits) := by
  subst hDigits hLimit
  rw [digitsValue_eq]
  split
  · rename_i hPart
    exact ⟨fun h => (nomatch h), fun h => absurd hPart (wholeRun_iff.mpr h.1.1)⟩
  · rename_i hWhole
    split
    · rename_i hLarge
      exact ⟨fun h => (nomatch h), fun h => absurd h.1.2 (Nat.not_lt.mpr hLarge)⟩
    · rename_i hFits
      rw [Except.ok.injEq, Prod.mk.injEq, hValue (Nat.not_le.mp hFits)]
      exact ⟨fun h => ⟨⟨wholeRun_iff.mp hWhole, Nat.not_le.mp hFits⟩, h.2.symm, h.1.symm⟩,
        fun h => ⟨h.2.2.symm, h.2.1.symm⟩⟩

theorem parseBinary_ok_iff (message : String) : (if digits = [] then .error message
      else (binaryValue 0 digits).map fun n => (toLongLong n, 2) : Except String (Int × Nat)) =
        .ok (v, radix) ↔
      ((digits ≠ [] ∧ ∀ c ∈ digits, isDigitOf 2 c = true) ∧ positional 2 digits < limitOf 2) ∧
        radix = 2 ∧ v = toLongLong (positional 2 digits) := by
  have hBit : ∀ c, isDigitOf 2 c = true ↔ c = '0' ∨ c = '1' := fun c => by simp [isDigitOf]
  have hLoop := @binaryValue_ok_iff 0 (by decide) digits
  simp only [hBit]
  split
  · rename_i hEmpty
    exact ⟨fun h => (nomatch h), fun h => absurd hEmpty h.1.1.1⟩
  · rename_i hSome
    have hValue : digits.foldl (fun (value : Nat) c => value * 2 + hexDigitValue c) 0 =
        positional 2 digits := digitsValue_eq 2 digits
    rw [hValue] at hLoop
    cases hRead : binaryValue 0 digits with
    | error message' =>
      refine ⟨fun h => (nomatch h), fun h => ?_⟩
      have hOk := (hLoop _).mpr ⟨h.1.1.2, rfl, h.1.2⟩
      rw [hRead] at hOk
      cases hOk
    | ok n =>
      obtain ⟨hAll, rfl, hFits⟩ := (hLoop n).mp hRead
      rw [Except.map, Except.ok.injEq, Prod.mk.injEq]
      exact ⟨fun h => ⟨⟨⟨hSome, hAll⟩, hFits⟩, h.2.symm, h.1.symm⟩,
        fun h => ⟨h.2.2.symm, h.2.1.symm⟩⟩

theorem radixOf_of_no_mark (hLower : ∀ rest, text = '0' :: 'x' :: rest → False)
    (hUpper : ∀ rest, text = '0' :: 'X' :: rest → False)
    (hBinary : ∀ rest, text = '0' :: 'b' :: rest → False)
    (hBinary' : ∀ rest, text = '0' :: 'B' :: rest → False) : radixOf text = 10 := by
  unfold radixOf
  split
  · rename_i c rest
    have hNotHex : ¬ (c = 'x' ∨ c = 'X') := by
      rintro (rfl | rfl)
      · exact hLower rest rfl
      · exact hUpper rest rfl
    have hNotBinary : ¬ (c = 'b' ∨ c = 'B') := by
      rintro (rfl | rfl)
      · exact hBinary rest rfl
      · exact hBinary' rest rfl
    rw [if_neg hNotHex, if_neg hNotBinary]
  · rfl

theorem marked_of_radixOf_ne (h : radixOf text ≠ 10) : ∃ c rest, text = '0' :: c :: rest ∧
    (c = 'x' ∨ c = 'X' ∨ c = 'b' ∨ c = 'B') := by
  unfold radixOf at h
  split at h
  · rename_i c rest
    refine ⟨c, rest, rfl, ?_⟩
    split_ifs at h with hHex hBinary
    · exact hHex.elim Or.inl fun hUpper => Or.inr (Or.inl hUpper)
    · exact hBinary.elim (fun hLower => Or.inr (Or.inr (Or.inl hLower)))
        fun hUpper => Or.inr (Or.inr (Or.inr hUpper))
    · exact absurd rfl h
  · exact absurd rfl h

/-- **The integers that the parser accepts** are those that fit, and the value is theirs. -/
theorem parseIntegerLiteral_ok_iff (text : Text) (v : Int) (radix : Nat) :
    parseIntegerLiteral text = .ok (v, radix) ↔ IsInteger text ∧ radix = radixOf text ∧
      v = toLongLong (positional (radixOf text) (digitsOf text)) := by
  unfold parseIntegerLiteral
  split
  · rename_i digits
    rw [isInteger_iff (r := 16) rfl rfl]
    exact parseRun_ok_iff _ _ rfl rfl fun _ => by rw [digitsValue_eq]
  · rename_i digits
    rw [isInteger_iff (r := 16) rfl rfl]
    exact parseRun_ok_iff _ _ rfl rfl fun _ => by rw [digitsValue_eq]
  · rename_i digits
    rw [isInteger_iff (r := 2) rfl rfl]
    exact parseBinary_ok_iff _
  · rename_i digits
    rw [isInteger_iff (r := 2) rfl rfl]
    exact parseBinary_ok_iff _
  · rename_i hLower hUpper hBinary hBinary'
    have hRadix := radixOf_of_no_mark hLower hUpper hBinary hBinary'
    have hDigits : digitsOf text = text := by rw [digitsOf, if_pos hRadix]
    rw [isInteger_iff hRadix hDigits, hRadix, hDigits]
    refine parseRun_ok_iff _ _ rfl rfl fun hFits => ?_
    rw [digitsValue_eq, toLongLong, if_pos hFits]

end Parsing

-- ---
-- What the lexer takes
-- ---

/-- The characters that `lexer_lex_number` takes. -/
def digitRun (rest : Text) : Text :=
  if radixOf rest = 10 then rest.takeWhile fun c => isDigit c || c = '.'
  else rest.take 2 ++ (rest.drop 2).takeWhile (isDigitOf (radixOf rest))

def MarkAlone (rest : Text) : Prop :=
  radixOf rest ≠ 10 ∧ (rest.drop 2).takeWhile (isDigitOf (radixOf rest)) = []

variable {after : Text}

section Taking

variable {lx : Lexer} {rest : Text}

theorem lexRadixNumber_spec (hRadix : radixOf lx.rest = r) (hMark : r ≠ 10) (message : String)
    (hDigits : p = isDigitOf r) :
    (MarkAlone lx.rest ∧ (lexRadixNumber lx p message).1.type = .error) ∨
      (¬ MarkAlone lx.rest ∧ (lexRadixNumber lx p message).1.type = .number ∧
        (lexRadixNumber lx p message).1.value = some (digitRun lx.rest) ∧
        (lexRadixNumber lx p message).2 = lx.skip (digitRun lx.rest).length) := by
  subst hRadix hDigits
  have hTwo : (lx.rest.take 2).length = 2 := by
    obtain ⟨c, rest, hRest, -⟩ := marked_of_radixOf_ne hMark
    rw [hRest]
    rfl
  unfold lexRadixNumber MarkAlone
  rw [digitRun, if_neg hMark]
  split
  · rename_i hNone
    exact Or.inl ⟨⟨hMark, hNone⟩, rfl⟩
  · rename_i digits hSome
    have hRun : lx.rest.take (2 + ((lx.rest.drop 2).takeWhile
        (isDigitOf (radixOf lx.rest))).length) =
        lx.rest.take 2 ++ (lx.rest.drop 2).takeWhile (isDigitOf (radixOf lx.rest)) := by
      rw [take_add, ← prefix_iff_eq_take.mp ( takeWhile_prefix _)]
    refine Or.inr ⟨fun h => hSome h.2, rfl, congrArg some hRun, ?_⟩
    rw [length_append, hTwo]
    rfl

/-- **The token at a number.** -/
theorem lexNumber_spec (lx : Lexer) : (MarkAlone lx.rest ∧ (lexNumber lx).1.type = .error) ∨
      (¬ MarkAlone lx.rest ∧ (lexNumber lx).1.type = .number ∧
        (lexNumber lx).1.value = some (digitRun lx.rest) ∧
        (lexNumber lx).2 = lx.skip (digitRun lx.rest).length) := by
  unfold lexNumber
  split
  · rename_i hRest
    exact lexRadixNumber_spec (r := 16) (by rw [hRest]; rfl) (by decide) _ rfl
  · rename_i hRest
    exact lexRadixNumber_spec (r := 16) (by rw [hRest]; rfl) (by decide) _ rfl
  · rename_i hRest
    exact lexRadixNumber_spec (r := 2) (by rw [hRest]; rfl) (by decide) _ rfl
  · rename_i hRest
    exact lexRadixNumber_spec (r := 2) (by rw [hRest]; rfl) (by decide) _ rfl
  · rename_i hLower hUpper hBinary hBinary'
    have hRadix := radixOf_of_no_mark hLower hUpper hBinary hBinary'
    refine Or.inr ⟨fun h => h.1 hRadix, rfl, ?_, ?_⟩
    · rw [digitRun, if_pos hRadix]
      exact congrArg some (prefix_iff_eq_take.mp ( takeWhile_prefix _)).symm
    · rw [digitRun, if_pos hRadix]
      rfl

theorem takeWhile_eq_of_all {q : Char → Bool} (hNarrow : ∀ c, p c = true → q c = true)
    (hAll : ∀ c ∈ rest.takeWhile q, p c = true) : rest.takeWhile p = rest.takeWhile q := by
  induction rest with
  | nil => rfl
  | cons c rest ih =>
    rw [takeWhile_cons, takeWhile_cons] at *
    by_cases hq : q c = true
    · rw [if_pos hq, forall_mem_cons] at hAll
      rw [if_pos hq, if_pos hAll.1, ih hAll.2]
    · rw [if_neg hq, if_neg fun hp => hq (hNarrow c hp)]

theorem isAlphanum_of_isHexDigit (h : isHexDigit c = true) : c.isAlphanum = true := by
  simp only [isHexDigit, Bool.or_eq_true, Bool.and_eq_true, decide_eq_true_eq] at h
  delta Char.isAlphanum Char.isAlpha Char.isUpper Char.isLower
  simp only [Bool.or_eq_true, Bool.and_eq_true, decide_eq_true_eq, ge_iff_le]
  rcases h with (hDigit | ⟨hLow, hHigh⟩) | ⟨hLow, hHigh⟩
  · exact Or.inr hDigit
  · exact Or.inl (Or.inr ⟨hLow, Nat.le_trans hHigh (by decide)⟩)
  · exact Or.inl (Or.inl ⟨hLow, Nat.le_trans hHigh (by decide)⟩)

theorem isAlphanum_of_isDigitOf (h : isDigitOf r c = true) : c.isAlphanum = true := by
  unfold isDigitOf at h
  split at h
  · exact isAlphanum_of_isHexDigit h
  split at h
  · have hBit : c = '0' ∨ c = '1' := by simpa using h
    rcases hBit with rfl | rfl <;> decide
  · rw [Char.isAlphanum, show c.isDigit = true from h, Bool.or_true]

theorem radixOf_numberText (rest : Text) : radixOf (numberText rest) = radixOf rest := by
  by_cases hRadix : radixOf rest = 10
  · by_contra hMarked
    obtain ⟨c, text, hText, hMark⟩ := marked_of_radixOf_ne fun h => hMarked (h.trans hRadix.symm)
    obtain ⟨behind, hBehind⟩ := takeWhile_prefix (l := rest)
      (fun c : Char => c.isAlphanum || c = '.')
    rw [show rest.takeWhile (fun c : Char => c.isAlphanum || c = '.') = numberText rest from rfl,
      hText] at hBehind
    rw [← hBehind] at hRadix
    revert hRadix
    rcases hMark with rfl | rfl | rfl | rfl <;> exact fun h => nomatch h
  · obtain ⟨c, behind, rfl, hMark⟩ := marked_of_radixOf_ne hRadix
    rcases hMark with rfl | rfl | rfl | rfl <;> rfl

theorem numberText_marked (hRadix : radixOf rest = r) (hMark : r ≠ 10) :
    numberText rest = rest.take 2 ++ numberText (rest.drop 2) := by
  obtain ⟨c, behind, rfl, hMark⟩ := marked_of_radixOf_ne (hRadix ▸ hMark)
  rcases hMark with rfl | rfl | rfl | rfl <;> rfl

theorem digitRun_of_isInteger (h : IsInteger (numberText rest)) :
    digitRun rest = numberText rest := by
  have hDigits := h.digits
  rw [radixOf_numberText] at hDigits
  by_cases hRadix : radixOf rest = 10
  · rw [digitsOf, if_pos ((radixOf_numberText rest).trans hRadix), hRadix] at hDigits
    rw [digitRun, if_pos hRadix]
    refine takeWhile_eq_of_all (fun c hc => ?_) fun c hc => ?_
    · rw [Bool.or_eq_true] at hc ⊢
      exact hc.imp_left (isAlphanum_of_isDigitOf (r := 10))
    · rw [Bool.or_eq_true]
      exact Or.inl (hDigits c hc)
  · have hText := numberText_marked rfl hRadix
    obtain ⟨c, behind, rfl, -⟩ := marked_of_radixOf_ne hRadix
    rw [digitsOf, if_neg (by rwa [radixOf_numberText]), hText] at hDigits
    rw [digitRun, if_neg hRadix, hText]
    refine congrArg _ (takeWhile_eq_of_all (fun d hd => ?_) hDigits)
    rw [isAlphanum_of_isDigitOf hd, Bool.true_or]

theorem IsDecimalPoint.radix (h : IsDecimalPoint text) : radixOf text = 10 := by
  by_contra hMarked
  obtain ⟨c, behind, hText, hMark⟩ := marked_of_radixOf_ne hMarked
  have hOther := h.others c (by rw [hText]; exact mem_cons_of_mem _ mem_cons_self)
  revert hOther
  rcases hMark with rfl | rfl | rfl | rfl <;> decide

theorem IsInteger.no_point (h : IsInteger text) : '.' ∉ text := by
  intro hPoint
  have hDigits := h.digits
  by_cases hRadix : radixOf text = 10
  · rw [digitsOf, if_pos hRadix, hRadix] at hDigits
    exact absurd (hDigits '.' hPoint) (by decide)
  · have hDigit : isDigitOf (radixOf text) '.' = true ∨ '.' ∈ text.take 2 := by
      rw [← take_append_drop 2 text, mem_append] at hPoint
      rw [digitsOf, if_neg hRadix] at hDigits
      exact hPoint.symm.imp_left (hDigits '.')
    obtain ⟨c, behind, rfl, hMark⟩ := marked_of_radixOf_ne hRadix
    rcases hDigit with hPointDigit | hMem
    · exact absurd (isAlphanum_of_isDigitOf hPointDigit) (by decide)
    · have hTwo : '.' = '0' ∨ '.' = c := by simpa using hMem
      revert hTwo
      rcases hMark with rfl | rfl | rfl | rfl <;> decide

theorem digitRun_of_isDecimalPoint (h : IsDecimalPoint (numberText rest)) :
    digitRun rest = numberText rest := by
  have hRadix : radixOf rest = 10 := (radixOf_numberText rest).symm.trans h.radix
  rw [digitRun, if_pos hRadix]
  refine takeWhile_eq_of_all (fun c hc => ?_) fun c hc => ?_
  · rw [Bool.or_eq_true] at hc ⊢
    exact hc.imp_left (isAlphanum_of_isDigitOf (r := 10))
  · simpa using h.others c hc

theorem radixOf_digitRun (rest : Text) : radixOf (digitRun rest) = radixOf rest := by
  by_cases hRadix : radixOf rest = 10
  · rw [hRadix, digitRun, if_pos hRadix]
    by_contra hMarked
    obtain ⟨c, text, hText, hMark⟩ := marked_of_radixOf_ne hMarked
    have hTaken : (isDigit c || decide (c = '.')) = true :=
      mem_takeWhile_imp (p := fun c => isDigit c || decide (c = '.')) (l := rest)
        (by rw [hText]; exact mem_cons_of_mem _ mem_cons_self)
    revert hTaken
    rcases hMark with rfl | rfl | rfl | rfl <;> decide
  · obtain ⟨c, behind, rfl, hMark⟩ := marked_of_radixOf_ne hRadix
    rcases hMark with rfl | rfl | rfl | rfl <;> rfl

theorem mem_digitRun (h : c ∈ digitRun rest) : c.isAlphanum = true ∨ c = '.' := by
  unfold digitRun at h
  split at h
  · have hTaken := mem_takeWhile_imp h
    rw [Bool.or_eq_true, decide_eq_true_eq] at hTaken
    exact hTaken.imp_left (isAlphanum_of_isDigitOf (r := 10))
  · rename_i hMarked
    obtain ⟨d, behind, rfl, hMark⟩ := marked_of_radixOf_ne hMarked
    rcases mem_append.mp h with hStart | hDigits
    · have hTwo : c = '0' ∨ c = d := by simpa using hStart
      rcases hTwo with rfl | rfl
      · exact Or.inl rfl
      · rcases hMark with rfl | rfl | rfl | rfl <;> exact Or.inl rfl
    · exact Or.inl (isAlphanum_of_isDigitOf (mem_takeWhile_imp hDigits))

theorem cString_digitRun (rest : Text) : cString (digitRun rest) = digitRun rest := by
  rw [cString, takeWhile_eq_self_iff]
  intro c hc
  rw [decide_eq_true_eq]
  intro hZero
  obtain rfl : c = Char.ofNat 0 := Char.ext (UInt32.toNat_inj.mp hZero)
  revert hc
  exact fun hc => (mem_digitRun hc).elim (by decide) (by decide)

theorem isInteger_digitRun_iff (hRest : rest = c :: after) (hDigit : isDigit c = true)
    (hMark : ¬ MarkAlone rest) (hPoint : '.' ∉ digitRun rest) :
    IsInteger (digitRun rest) ↔ positional (radixOf (digitRun rest)) (digitsOf (digitRun rest)) <
      limitOf (radixOf (digitRun rest)) := by
  refine ⟨IsInteger.fits, fun hFits => ⟨?_, ?_, hFits⟩⟩
  all_goals
    rw [digitsOf, radixOf_digitRun]
    unfold digitRun at hPoint ⊢
    by_cases hRadix : radixOf rest = 10
  · rw [if_pos hRadix, if_pos hRadix, hRest, takeWhile_cons, hDigit]
    exact cons_ne_nil _ _
  · obtain ⟨d, behind, rfl, -⟩ := marked_of_radixOf_ne hRadix
    rw [if_neg hRadix, if_neg hRadix]
    exact fun hNone => hMark ⟨hRadix, hNone⟩
  · rw [if_pos hRadix] at hPoint
    rw [if_pos hRadix, if_pos hRadix, hRadix]
    intro d hd
    have hTaken := mem_takeWhile_imp hd
    rw [Bool.or_eq_true, decide_eq_true_eq] at hTaken
    exact hTaken.resolve_right fun hEq => hPoint (hEq ▸ hd)
  · obtain ⟨d, behind, rfl, -⟩ := marked_of_radixOf_ne hRadix
    rw [if_neg hRadix, if_neg hRadix]
    exact fun d hd => mem_takeWhile_imp hd

theorem isDecimalPoint_digitRun_iff (hRest : rest = c :: after) (hDigit : isDigit c = true)
    (hPoint : '.' ∈ digitRun rest) :
    IsDecimalPoint (digitRun rest) ↔ (digitRun rest).count '.' ≤ 1 := by
  have hRadix : radixOf rest = 10 := by
    by_contra hMarked
    have hOf : '.' ∈ rest.take 2 ∨ isDigitOf (radixOf rest) '.' = true := by
      rw [digitRun, if_neg hMarked] at hPoint
      exact (mem_append.mp hPoint).imp_right mem_takeWhile_imp
    obtain ⟨d, behind, rfl, hMark⟩ := marked_of_radixOf_ne hMarked
    rcases hOf with hMem | hPointDigit
    · have hTwo : '.' = '0' ∨ '.' = d := by simpa using hMem
      revert hTwo
      rcases hMark with rfl | rfl | rfl | rfl <;> decide
    · exact absurd (isAlphanum_of_isDigitOf hPointDigit) (by decide)
  have hCount := count_pos_iff.mpr hPoint
  constructor
  · exact fun h => Nat.le_of_eq h.point
  · intro hOne
    rw [digitRun, if_pos hRadix] at hCount hOne ⊢
    refine ⟨⟨c, after.takeWhile fun c => isDigit c || c = '.', ?_, hDigit⟩, ?_, by omega⟩
    · rw [hRest, takeWhile_cons, hDigit]
      rfl
    · intro d hd
      simpa using mem_takeWhile_imp hd

end Taking

-- ---
-- Lexer and parser
-- ---

section Reading

variable {lx : Lexer}

theorem primaryExpression_number {p : State} (hType : p.currentToken.type = .number)
    (hValue : p.currentToken.value = some text) (hPlain : cString text = text)
    (expression : ParseM Node) (fuel : Nat) :
    primaryExpression expression fuel p =
      if '.' ∈ text then some (some (.floatLiteral text), p.advance)
      else match parseIntegerLiteral text with
        | .error message => some (none, p.setError message)
        | .ok (n, radix) => some (some (.numberLiteral n radix), p.advance) := by
  have hStart : primaryExpression expression fuel p = numberLiteral text p := by
    rw [primaryExpression, Attempt.bind_of_some (show currentType p = some (some .number, p) by
      rw [currentType, hType])]
    have hRead : currentValue p = some (some text, p) := by
      rw [currentValue, hValue, Option.getD_some, hPlain]
    exact Attempt.bind_of_some hRead
  rw [hStart, numberLiteral]
  split
  · rfl
  · cases parseIntegerLiteral text <;> rfl

theorem digitRun_read (hMark : ¬ MarkAlone lx.rest) :
    ('.' ∈ digitRun lx.rest → Accepted lx (digitRun lx.rest) (.floatLiteral (digitRun lx.rest))) ∧
    ('.' ∉ digitRun lx.rest → IsInteger (digitRun lx.rest) →
      Accepted lx (digitRun lx.rest) (.numberLiteral
        (toLongLong (positional (radixOf (digitRun lx.rest)) (digitsOf (digitRun lx.rest))))
        (radixOf (digitRun lx.rest)))) ∧
    ('.' ∉ digitRun lx.rest → ¬ IsInteger (digitRun lx.rest) → Reported lx) := by
  obtain ⟨hAlone, -⟩ | ⟨-, hType, hValue, hBehind⟩ := lexNumber_spec lx
  · exact absurd hAlone hMark
  have hParse : ∀ (p : State) (expression : ParseM Node) (fuel : Nat),
      p.currentToken = (lexNumber lx).1 → _ := fun p expression fuel hToken =>
    primaryExpression_number (hToken ▸ hType) (hToken ▸ hValue) (cString_digitRun lx.rest)
      expression fuel
  refine ⟨fun hPoint => ⟨hType, hValue, hBehind, ?_⟩,
    fun hPoint hInteger => ⟨hType, hValue, hBehind, ?_⟩,
    fun hPoint hOther => Or.inr ⟨hType, ?_⟩⟩
  · intro p expression fuel hToken
    rw [hParse p expression fuel hToken, if_pos hPoint]
  · intro p expression fuel hToken
    rw [hParse p expression fuel hToken, if_neg hPoint,
      (parseIntegerLiteral_ok_iff _ _ _).mpr ⟨hInteger, rfl, rfl⟩]
  · intro p expression fuel hToken
    rw [hParse p expression fuel hToken, if_neg hPoint]
    cases hRead : parseIntegerLiteral (digitRun lx.rest) with
    | error message => exact ⟨message, rfl⟩
    | ok result =>
      exact absurd ((parseIntegerLiteral_ok_iff _ _ _).mp hRead).1 hOther

theorem State.advance_reports {p : State} (hError : p.peekToken.type = .error)
    (hMore : p.currentToken.type ≠ .eof) : p.advance.hasError = true := by
  rw [State.advance, if_neg hMore]
  rw [if_pos hError]
  rfl

theorem reported_of_error (h : (lexNumber lx).1.type = .error) : Reported lx :=
  Or.inl ⟨h, fun _ hPeek hMore => State.advance_reports (hPeek ▸ h) hMore⟩

theorem Accepted.not_reported {node : Node} (h : Accepted lx text node) : ¬ Reported lx := by
  obtain ⟨hType, -, -, hParse⟩ := h
  rintro (⟨hError, -⟩ | ⟨-, hFails⟩)
  · rw [hType] at hError
    cases hError
  · let p : State := { State.create lx none with currentToken := (lexNumber lx).1 }
    obtain ⟨message, hNull⟩ := hFails p .null 0 rfl
    rw [hParse p .null 0 rfl] at hNull
    cases hNull

/-- A mark of the radix stands without digits, or the run that the lexer takes is all that is
written as the number and has at most one point, or it has none and is too large. -/
def CleanRun (rest : Text) : Prop :=
  MarkAlone rest ∨ (numberText rest = digitRun rest ∧ (digitRun rest).count '.' ≤ 1) ∨
    ('.' ∉ digitRun rest ∧ limitOf (radixOf (digitRun rest)) ≤
      positional (radixOf (digitRun rest)) (digitsOf (digitRun rest)))

theorem readsNumber_of_markAlone (hAlone : MarkAlone lx.rest)
    (hError : (lexNumber lx).1.type = .error) : ReadsNumber lx := by
  refine ⟨?_, ?_, fun _ _ => reported_of_error hError⟩
  · intro hInteger
    have hNone := hInteger.nonempty
    rw [← digitRun_of_isInteger hInteger, digitsOf, radixOf_digitRun, if_neg hAlone.1, digitRun,
      if_neg hAlone.1, hAlone.2, append_nil] at hNone
    exact absurd (drop_eq_nil_of_le (length_take_le 2 _)) hNone
  · intro hPoint
    exact absurd ((radixOf_numberText lx.rest).symm.trans hPoint.radix) hAlone.1

theorem ReadsNumber.cleanRun (hReads : ReadsNumber lx) (hRest : lx.rest = c :: after)
    (hDigit : isDigit c = true) : CleanRun lx.rest := by
  by_cases hMark : MarkAlone lx.rest
  · exact Or.inl hMark
  obtain ⟨hFloat, hNumber, -⟩ := digitRun_read hMark
  have hFits := isInteger_digitRun_iff hRest hDigit hMark
  by_cases hText : numberText lx.rest = digitRun lx.rest
  · by_cases hPoint : '.' ∈ digitRun lx.rest
    · refine Or.inr (Or.inl ⟨hText, (isDecimalPoint_digitRun_iff hRest hDigit hPoint).mp ?_⟩)
      by_contra hMany
      refine (hFloat hPoint).not_reported (hReads.other ?_ (hText ▸ hMany))
      exact fun hInteger => hInteger.no_point (hText ▸ hPoint)
    · refine Or.inr (Or.inl ⟨hText, ?_⟩)
      rw [count_eq_zero_of_not_mem hPoint]
      exact Nat.zero_le 1
  · have hReported := hReads.other (fun h => hText (digitRun_of_isInteger h).symm)
      fun h => hText (digitRun_of_isDecimalPoint h).symm
    by_cases hPoint : '.' ∈ digitRun lx.rest
    · exact absurd hReported (hFloat hPoint).not_reported
    · refine Or.inr (Or.inr ⟨hPoint, ?_⟩)
      by_contra hSmall
      exact (hNumber hPoint ((hFits hPoint).mpr (Nat.not_le.mp hSmall))).not_reported hReported

theorem CleanRun.readsNumber (hClean : CleanRun lx.rest) (hRest : lx.rest = c :: after)
    (hDigit : isDigit c = true) : ReadsNumber lx := by
  obtain ⟨hAlone, hError⟩ | ⟨hMark, -⟩ := lexNumber_spec lx
  · exact readsNumber_of_markAlone hAlone hError
  obtain ⟨hFloat, hNumber, hLarge⟩ := digitRun_read hMark
  rcases hClean with hAlone | ⟨hText, hOne⟩ | ⟨hPoint, hTooLarge⟩
  · exact absurd hAlone hMark
  · refine ⟨fun hInteger => ?_, fun hDecimal => ?_, fun hInteger hDecimal => ?_⟩
    · rw [hText] at hInteger ⊢
      have hWord : positional (radixOf (digitRun lx.rest)) (digitsOf (digitRun lx.rest)) <
          2 ^ 64 := by
        refine Nat.lt_of_lt_of_le hInteger.fits ?_
        unfold limitOf
        split <;> decide
      exact ⟨_, hNumber hInteger.no_point hInteger, toLongLong_spec hWord⟩
    · rw [hText] at hDecimal ⊢
      exact hFloat (count_pos_iff.mp (Nat.lt_of_lt_of_eq Nat.one_pos hDecimal.point.symm))
    · rw [hText] at hInteger hDecimal
      refine hLarge (fun hPoint => hDecimal ?_) hInteger
      exact (isDecimalPoint_digitRun_iff hRest hDigit hPoint).mpr hOne
  · have hOther : ¬ IsInteger (digitRun lx.rest) := fun hInteger =>
      Nat.not_lt.mpr hTooLarge hInteger.fits
    refine ⟨fun hInteger => ?_, fun hDecimal => ?_, fun _ _ => hLarge hPoint hOther⟩
    · exact absurd ((digitRun_of_isInteger hInteger) ▸ hInteger) hOther
    · rw [digitRun_of_isDecimalPoint hDecimal] at hPoint
      exact absurd (count_pos_iff.mp (Nat.lt_of_lt_of_eq Nat.one_pos hDecimal.point.symm)) hPoint

/-- **The numbers that are read exactly** are those with a clean run. -/
theorem readsNumber_iff {c : Char} {after : Text} (hRest : lx.rest = c :: after)
    (hDigit : isDigit c = true) : ReadsNumber lx ↔ CleanRun lx.rest :=
  ⟨fun hReads => hReads.cleanRun hRest hDigit, fun hClean => hClean.readsNumber hRest hDigit⟩

theorem readsNumber_iff_hexadecimal : ReadsNumber (.create "0xFFFFFFFFFFFFFFFF;".toList) :=
  (readsNumber_iff rfl rfl).mpr (Or.inr (Or.inl ⟨by decide, by decide⟩))

/-- **Two points.** The text `1.2.3` comes to a literal, and `12ab` to the literal 12 with a word
behind it. -/
theorem points_dropped : ¬ ReadsNumber (.create "1.2.3;".toList) ∧
    ¬ ReadsNumber (.create "12ab;".toList) := by
  refine ⟨fun h => ?_, fun h => ?_⟩
  · rcases h.cleanRun rfl rfl with ⟨hMark, -⟩ | ⟨-, hOne⟩ | ⟨hPoint, -⟩
    · exact hMark rfl
    · exact absurd hOne (by decide)
    · exact absurd hPoint (by decide)
  · rcases h.cleanRun rfl rfl with ⟨hMark, -⟩ | ⟨hText, -⟩ | ⟨-, hLarge⟩
    · exact hMark rfl
    · exact absurd hText (by decide)
    · exact absurd hLarge (by decide)

end Reading

end Mettle.Parser
