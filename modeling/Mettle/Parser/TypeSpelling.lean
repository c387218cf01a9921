import Mettle.Parser.TypeGrammar

/-!
# Mettle — type annotations as they are written

A writing of a type gives its tokens with white space before each (`Writing`).
The lexer cuts a writing back into the tokens, with one exception: two closing
`>` with nothing between them are one `>>` (`Glued`), which the parser does not
take for two.
-/

namespace Mettle.Parser

open Lexing Lib List

-- ---
-- Where a token ends
-- ---

def joinsChar : Lexeme → Char → Bool
  | .fn, c | .name _, c => isWordChar c
  | .size _, c => isWordChar c || c = '.'
  | .mark .less, c => c = '=' || c = '<'
  | .mark .greater, c => c = '=' || c = '>'
  | .mark .star, c => c = '='
  | .mark _, _ => false

def Apart (l : Lexeme) (after : Text) : Prop := ∀ c ∈ after.head?, joinsChar l c = false

/-- The token of `l` was cut off in front of `after`. -/
structure CutOff (l : Lexeme) (after : Text) (depth : Nat) (out : Token × Lexer) : Prop where
  type : out.1.type = l.type
  value : cString (out.1.value.getD []) = l.text
  rest : out.2.rest = after
  depth_eq : out.2.continuationDepth = depthAfter l.type depth

variable {c : Char}

theorem isWordChar_of_start (h : isWordStart c = true) : isWordChar c = true := by
  simp only [isWordStart, isWordChar, Bool.or_eq_true, Char.isAlphanum] at h ⊢
  exact h.imp_left .inl

theorem isWordChar_of_digit (h : isDigit c = true) : isWordChar c = true := by
  simp only [isDigit, isWordChar, Bool.or_eq_true, Char.isAlphanum] at h ⊢
  exact .inl (.inr h)

theorem operatorAt_wordChar (h : isWordChar c = true) (after : Text) :
    operatorAt c after = none := by
  unfold operatorAt
  split <;> first | rfl | exact absurd h (by decide)

theorem wordChar_ne {d : Char} (h : isWordChar c = true) (hd : isWordChar d = false) : c ≠ d := by
  rintro rfl
  rw [h] at hd
  cases hd

theorem isSpace_wordChar (h : isWordChar c = true) : isSpace c = false := by
  by_contra hSpace
  simp only [isSpace, Bool.not_eq_false, Bool.or_eq_true, decide_eq_true_eq,
    Bool.and_eq_true] at hSpace
  rcases hSpace with rfl | hRange
  · exact absurd h (by decide)
  · have hCases : c.toNat = 9 ∨ c.toNat = 10 ∨ c.toNat = 11 ∨ c.toNat = 12 ∨ c.toNat = 13 := by
      omega
    have hChar : c = Char.ofNat c.toNat := (Char.ofNat_toNat c).symm
    rcases hCases with hc | hc | hc | hc | hc <;> rw [hc] at hChar <;> rw [hChar] at h <;>
      exact absurd h (by decide)

variable {w : Text}

theorem cString_wordChars (h : ∀ c ∈ w, isWordChar c = true) : cString w = w := by
  rw [cString, takeWhile_eq_self_iff]
  intro c hc
  have hWord := h c hc
  simp only [decide_eq_true_eq]
  intro hZero
  rw [← Char.ofNat_toNat c, hZero] at hWord
  exact absurd hWord (by decide)

theorem takeWhile_run {f : Char → Bool} {after : Text} (hRun : ∀ c ∈ w, f c = true)
    (hEnd : ∀ c ∈ after.head?, f c = false) : (w ++ after).takeWhile f = w := by
  rw [takeWhile_append_of_pos hRun]
  cases after with
  | nil => simp
  | cons c after =>
    rw [takeWhile_cons_of_neg (by simp [hEnd c rfl]), append_nil]

-- ---
-- The lexer cuts off one token
-- ---

section Cut

variable {lx : Lexer} {after : Text}

theorem rest_skip_append (hRest : lx.rest = w ++ after) : (lx.skip w.length).rest = after := by
  rw [Lexer.rest_skip, hRest, drop_left]

theorem lexToken_word {c : Char} (hRest : lx.rest = c :: w ++ after) (hStart : isWordStart c = true)
    (hWord : ∀ d ∈ c :: w, isWordChar d = true) (hEnd : ∀ d ∈ after.head?, isWordChar d = false) :
    (lexToken c (w ++ after) lx).1.type = wordType (c :: w) ∧
      cString ((lexToken c (w ++ after) lx).1.value.getD []) = c :: w ∧
      (lexToken c (w ++ after) lx).2.rest = after ∧
      (lexToken c (w ++ after) lx).2.continuationDepth = lx.continuationDepth := by
  have hC := isWordChar_of_start hStart
  have hDigit : isDigit c = false := by
    by_contra h
    simp only [isDigit, Bool.not_eq_false, isWordStart, Bool.or_eq_true, decide_eq_true_eq] at h hStart
    rcases hStart with hAlpha | rfl
    · delta Char.isAlpha Char.isUpper Char.isLower at hAlpha
      simp only [Char.isDigit, Bool.or_eq_true, Bool.and_eq_true, decide_eq_true_eq,
        UInt32.le_iff_toNat_le] at h hAlpha
      have h9 : ('9' : Char).val.toNat = 57 := rfl
      have hA : ('A' : Char).val.toNat = 65 := rfl
      have ha : ('a' : Char).val.toNat = 97 := rfl
      omega
    · exact absurd h (by decide)
  have hRun : lx.rest.takeWhile isWordChar = c :: w := by
    rw [hRest]
    exact takeWhile_run hWord hEnd
  have hLex : lexToken c (w ++ after) lx = lexIdentifierOrKeyword lx := by
    rw [lexToken, operatorAt_wordChar hC]
    rw [if_neg (wordChar_ne hC (by decide)), if_neg (by simp [hDigit]), if_pos hStart]
  rw [hLex, lexIdentifierOrKeyword, hRun]
  exact ⟨rfl, cString_wordChars hWord, rest_skip_append hRest, rfl⟩

theorem lexToken_digits {c : Char} (hRest : lx.rest = c :: w ++ after)
    (hDigits : ∀ d ∈ c :: w, isDigit d = true)
    (hEnd : ∀ d ∈ after.head?, (isWordChar d || d = '.') = false) :
    lexNumber lx = numberToken lx (c :: w).length := by
  have hRun : (c :: w ++ after).takeWhile (fun d => isDigit d || d = '.') = c :: w := by
    refine takeWhile_run (fun d hd => by simp [hDigits d hd]) fun d hd => ?_
    have := hEnd d hd
    simp only [Bool.or_eq_false_iff] at this ⊢
    refine ⟨?_, this.2⟩
    by_contra hDigit
    rw [isWordChar_of_digit (by simpa using hDigit)] at this
    exact absurd this.1 (by decide)
  have hNoMark : ∀ mark rest, c :: w ++ after = '0' :: mark :: rest →
      isWordChar mark = true → isDigit mark = true := by
    intro mark rest hEq hMark
    cases w with
    | nil =>
      simp only [cons_append, nil_append, cons.injEq] at hEq
      have := hEnd mark (by rw [hEq.2]; rfl)
      rw [hMark] at this
      exact absurd this (by simp)
    | cons d w =>
      simp only [cons_append, cons.injEq] at hEq
      rw [← hEq.2.1]
      exact hDigits d (by simp)
  rw [lexNumber, hRest]
  split
  · next rest hEq => exact absurd (hNoMark _ _ hEq (by decide)) (by decide)
  · next rest hEq => exact absurd (hNoMark _ _ hEq (by decide)) (by decide)
  · next rest hEq => exact absurd (hNoMark _ _ hEq (by decide)) (by decide)
  · next rest hEq => exact absurd (hNoMark _ _ hEq (by decide)) (by decide)
  · rw [hRun]

theorem lexRadixNumber_digits {mark : Char} {digits : Text} {digit : Char → Bool}
    (message : String) (hRest : lx.rest = '0' :: mark :: digits ++ after) (hSome : digits ≠ [])
    (hDigits : ∀ d ∈ digits, digit d = true) (hEnd : ∀ d ∈ after.head?, digit d = false) :
    lexRadixNumber lx digit message = numberToken lx ('0' :: mark :: digits).length := by
  have hRun : (lx.rest.drop 2).takeWhile digit = digits := by
    rw [hRest]
    exact takeWhile_run hDigits hEnd
  rw [lexRadixNumber, hRun]
  split
  · exact absurd rfl hSome
  · exact congrArg (numberToken lx) (by simp only [length_cons]; omega)

theorem isWordChar_of_hex {c : Char} (h : isHexDigit c = true) : isWordChar c = true := by
  delta isWordChar Char.isAlphanum Char.isAlpha Char.isUpper Char.isLower
  simp only [isHexDigit, Bool.or_eq_true, Bool.and_eq_true, decide_eq_true_eq, Char.isDigit,
    Char.le_def, UInt32.le_iff_toNat_le] at h ⊢
  have hF : ('F' : Char).val.toNat = 70 := rfl
  have hf : ('f' : Char).val.toNat = 102 := rfl
  have hZ : ('Z' : Char).val.toNat = 90 := rfl
  have hz : ('z' : Char).val.toNat = 122 := rfl
  omega

theorem IsSize.cons {s : Text} (h : IsSize s) :
    ∃ c w, s = c :: w ∧ isDigit c = true ∧ ∀ d ∈ s, isWordChar d = true := by
  rcases h with ⟨hSome, hDigits⟩ | ⟨mark, digits, rfl, -, hRadix⟩
  · obtain ⟨c, w, rfl⟩ := exists_cons_of_ne_nil hSome
    exact ⟨c, w, rfl, hDigits c (by simp), fun d hd => isWordChar_of_digit (hDigits d hd)⟩
  · refine ⟨'0', _, rfl, by decide, fun d hd => ?_⟩
    rcases mem_cons.mp hd with rfl | hd
    · decide
    rcases mem_cons.mp hd with rfl | hd
    · rcases hRadix with ⟨rfl | rfl, -⟩ | ⟨rfl | rfl, -⟩ <;> decide
    · rcases hRadix with ⟨-, hHex⟩ | ⟨-, hBits⟩
      · exact isWordChar_of_hex (hHex d hd)
      · rcases hBits d hd with rfl | rfl <;> decide

theorem lexNumber_size {s : Text} (hSize : IsSize s) (hRest : lx.rest = s ++ after)
    (hEnd : ∀ d ∈ after.head?, (isWordChar d || d = '.') = false) :
    lexNumber lx = numberToken lx s.length := by
  have hNoWord : ∀ d ∈ after.head?, isWordChar d = false := fun d hd =>
    (Bool.or_eq_false_iff.mp (hEnd d hd)).1
  rcases hSize with ⟨hSome, hDigits⟩ | ⟨mark, digits, rfl, hSome, hRadix⟩
  · obtain ⟨c, w, rfl⟩ := exists_cons_of_ne_nil hSome
    exact lexToken_digits hRest hDigits hEnd
  · rcases hRadix with ⟨hMark, hHex⟩ | ⟨hMark, hBits⟩
    · have hNoHex : ∀ d ∈ after.head?, isHexDigit d = false := fun d hd => by
        by_contra h
        rw [Bool.not_eq_false] at h
        exact absurd (isWordChar_of_hex h) (by simp [hNoWord d hd])
      have hRadixNumber := lexRadixNumber_digits "Invalid hexadecimal literal" hRest hSome hHex
        hNoHex
      rw [lexNumber, hRest]
      rcases hMark with rfl | rfl <;> exact hRadixNumber
    · have hNoBit : ∀ d ∈ after.head?, (d = '0' || d = '1') = false := fun d hd => by
        by_contra h
        rw [Bool.not_eq_false, Bool.or_eq_true, decide_eq_true_eq, decide_eq_true_eq] at h
        have hWord := hNoWord d hd
        rcases h with rfl | rfl <;> exact absurd hWord (by decide)
      have hRadixNumber := lexRadixNumber_digits "Invalid binary literal" hRest hSome
        (fun d hd => by rcases hBits d hd with rfl | rfl <;> rfl) hNoBit
      rw [lexNumber, hRest]
      rcases hMark with rfl | rfl <;> exact hRadixNumber

theorem operatorAt_mark (m : Mark) (hApart : Apart (.mark m) after) :
    ∃ c w, m.text = c :: w ∧ c ≠ '\n' ∧ c ≠ '/' ∧ isSpace c = false ∧
      operatorAt c (w ++ after) = some (m.type, m.text.length) := by
  have hNext : ∀ d, joinsChar (.mark m) d = true → after[0]? ≠ some d := by
    intro d hJoins hd
    rw [← head?_eq_getElem?] at hd
    rw [hApart d hd] at hJoins
    cases hJoins
  cases m with
  | less =>
    refine ⟨'<', [], rfl, by decide, by decide, by decide, ?_⟩
    simp [operatorAt, hNext '=' rfl, hNext '<' rfl, Mark.type, Mark.text]
  | greater =>
    refine ⟨'>', [], rfl, by decide, by decide, by decide, ?_⟩
    simp [operatorAt, hNext '=' rfl, hNext '>' rfl, Mark.type, Mark.text]
  | star =>
    refine ⟨'*', [], rfl, by decide, by decide, by decide, ?_⟩
    simp [operatorAt, hNext '=' rfl, Mark.type, Mark.text]
  | dot => exact ⟨'.', [], rfl, by decide, by decide, by decide, rfl⟩
  | comma => exact ⟨',', [], rfl, by decide, by decide, by decide, rfl⟩
  | lparen => exact ⟨'(', [], rfl, by decide, by decide, by decide, rfl⟩
  | rparen => exact ⟨')', [], rfl, by decide, by decide, by decide, rfl⟩
  | arrow => exact ⟨'-', ['>'], rfl, by decide, by decide, by decide, rfl⟩
  | lbracket => exact ⟨'[', [], rfl, by decide, by decide, by decide, rfl⟩
  | rbracket => exact ⟨']', [], rfl, by decide, by decide, by decide, rfl⟩

/-- **The lexer cuts off a token of a type** where what follows does not join it. -/
theorem lexToken_lexeme (l : Lexeme) (hRest : lx.rest = l.text ++ after) (hApart : Apart l after) :
    ∃ c w, l.text = c :: w ∧ c ≠ '\n' ∧ c ≠ '/' ∧ isSpace c = false ∧
      CutOff l after lx.continuationDepth (lexToken c (w ++ after) lx) := by
  have hWordFacts : ∀ {c : Char}, isWordChar c = true →
      c ≠ '\n' ∧ c ≠ '/' ∧ isSpace c = false := fun h =>
    ⟨wordChar_ne h (by decide), wordChar_ne h (by decide), isSpace_wordChar h⟩
  cases l with
  | fn =>
    obtain ⟨hNewline, hSlash, hSpace⟩ := @hWordFacts 'f' (by decide)
    obtain ⟨hType, hValue, hBehind, hDepth⟩ :=
      lexToken_word (c := 'f') (w := ['n']) hRest (by decide)
        (forall_mem_cons.mpr ⟨rfl, forall_mem_singleton.mpr rfl⟩) hApart
    exact ⟨'f', ['n'], rfl, hNewline, hSlash, hSpace, hType, hValue, hBehind, hDepth⟩
  | name n =>
    obtain ⟨⟨⟨c, w, hText, hStart⟩, hWord⟩, hName⟩ := n.2
    have hText' : (Lexeme.name n).text = c :: w := hText
    have hFacts := hWordFacts (isWordChar_of_start hStart)
    rw [hText'] at hRest
    rw [hText] at hWord
    obtain ⟨hType, hValue, hBehind, hDepth⟩ := lexToken_word hRest hStart hWord hApart
    refine ⟨c, w, hText', hFacts.1, hFacts.2.1, hFacts.2.2, ?_, ?_, hBehind, ?_⟩
    · rw [hType, ← hText]
      rfl
    · rw [hValue, hText']
    · rw [hDepth]
      have hOpen : ∀ t, isTypeKeyword t = true ∨ isIdentifierLike t = true →
          depthAfter t lx.continuationDepth = lx.continuationDepth := by
        intro t ht
        cases t <;> first | rfl | rcases ht with h | h <;> cases h
      exact (hOpen _ hName).symm
  | size s =>
    obtain ⟨c, w, hText, hDigit, hWord⟩ := s.2.cons
    have hText' : (Lexeme.size s).text = c :: w := hText
    have hC : isWordChar c = true := isWordChar_of_digit hDigit
    have hFacts := hWordFacts hC
    have hNumber := lexNumber_size s.2 hRest hApart
    have hLex : lexToken c (w ++ after) lx = numberToken lx s.1.length := by
      rw [lexToken, operatorAt_wordChar hC, ← hNumber]
      rw [if_neg (wordChar_ne hC (by decide)), if_pos hDigit]
    refine ⟨c, w, hText', hFacts.1, hFacts.2.1, hFacts.2.2, ?_⟩
    rw [hLex]
    refine ⟨rfl, ?_, rest_skip_append hRest, rfl⟩
    show cString (lx.rest.take s.1.length) = s.1
    rw [hRest, show (Lexeme.size s).text = s.1 from rfl, take_left]
    exact cString_wordChars hWord
  | mark m =>
    obtain ⟨c, w, hText, hNewline, hSlash, hSpace, hOp⟩ := operatorAt_mark m hApart
    refine ⟨c, w, hText, hNewline, hSlash, hSpace, ?_⟩
    rw [lexToken, hOp]
    refine ⟨rfl, ?_, ?_, rfl⟩
    · show cString ((c :: (w ++ after)).take m.text.length) = m.text
      rw [← cons_append, ← hText, take_left]
      cases m <;> decide
    · have hBehind := rest_skip_append hRest
      exact hBehind

theorem lexToken_glued {text : Text} : GluedType (lexToken '>' ('>' :: text) lx).1.type := by
  have hOp : operatorAt '>' ('>' :: text) = some (.rshift, 2) ∨
      operatorAt '>' ('>' :: text) = some (.rshiftEquals, 3) := by
    simp only [operatorAt]
    split_ifs <;> simp_all
  rw [lexToken]
  rcases hOp with hOp | hOp <;> rw [hOp]
  · exact .inl rfl
  · exact .inr (.inr rfl)

-- ---
-- White space
-- ---

/-- White space at a bracket depth: a line end outside of brackets is a token. -/
def IsGap (depth : Nat) (gap : Text) : Prop :=
  ∀ c ∈ gap, isSpace c = true ∧ (c = '\n' → 0 < depth)

theorem skipSpace_gap {gap : Text} (hGap : IsGap lx.continuationDepth gap)
    (hRest : lx.rest = gap ++ after) (hEnd : ∀ c ∈ after.head?, isSpace c = false) :
    (skipSpace (gap ++ after) lx).rest = after ∧
      (skipSpace (gap ++ after) lx).continuationDepth = lx.continuationDepth := by
  induction gap generalizing lx with
  | nil =>
    cases after with
    | nil => exact ⟨hRest, rfl⟩
    | cons c after =>
      have hStop : skipSpace ([] ++ c :: after) lx = lx := by
        rw [nil_append, skipSpace, if_pos (by simp [hEnd c rfl])]
      rw [hStop]
      exact ⟨hRest, rfl⟩
  | cons c gap ih =>
    have hC := hGap c (by simp)
    have hMore : IsGap lx.continuationDepth gap := fun d hd => hGap d (by simp [hd])
    rw [cons_append, skipSpace, if_neg (by simp [hC.1])]
    split_ifs with hLine hOpen
    · exact @ih lx.nextLine hMore (by rw [Lexer.rest_nextLine, hRest]; rfl)
    · exact absurd (hC.2 hLine) hOpen
    · exact @ih (lx.skip 1) hMore (by rw [Lexer.rest_skip, hRest]; rfl)

theorem nextToken_gap {gap : Text} {c : Char} (hGap : IsGap lx.continuationDepth gap)
    (hRest : lx.rest = gap ++ c :: after) (hSpace : isSpace c = false) (hLine : c ≠ '\n')
    (hSlash : c ≠ '/') :
    ∃ lx', lx'.rest = c :: after ∧ lx'.continuationDepth = lx.continuationDepth ∧
      nextToken lx = lexToken c after lx' := by
  have hSkip := skipSpace_gap hGap hRest fun d hd => by
    cases hd
    exact hSpace
  rw [← hRest] at hSkip
  refine ⟨skipSpace lx.rest lx, hSkip.1, hSkip.2, ?_⟩
  refine nextToken_of_round ?_
  rw [nextTokenRound, hSkip.1]
  dsimp only
  rw [if_neg hLine, if_neg (fun h => hSlash h.1), if_neg (fun h => hSlash h.1)]

end Cut

-- ---
-- Which tokens stand side by side
-- ---

def Lexeme.opens (l : Lexeme) : Bool :=
  l = .mark .less || l = .mark .comma || l = .mark .lparen || l = .mark .arrow

def Lexeme.ends : Lexeme → Bool
  | .name _ => true
  | l => l = .mark .greater || l = .mark .star || l = .mark .rbracket

def Lexeme.follows (l : Lexeme) : Bool :=
  l = .mark .greater || l = .mark .star || l = .mark .lbracket || l = .mark .comma ||
    l = .mark .rparen

/-- The pairs of tokens that stand side by side in a type. -/
inductive Touches : Lexeme → Lexeme → Prop where
  | start {l l' : Lexeme} (hOpens : l.opens = true) (hStart : l' = .fn ∨ ∃ n, l' = .name n) :
      Touches l l'
  | behind {l l' : Lexeme} (hEnds : l.ends = true) (hFollows : l'.follows = true) : Touches l l'
  | qualify (n : TypeName) : Touches (.name n) (.mark .dot)
  | qualifier (n : TypeName) : Touches (.mark .dot) (.name n)
  | apply (n : TypeName) : Touches (.name n) (.mark .less)
  | fn : Touches .fn (.mark .lparen)
  | noParams : Touches (.mark .lparen) (.mark .rparen)
  | arrow : Touches (.mark .rparen) (.mark .arrow)
  | size (s : ArraySize) : Touches (.mark .lbracket) (.size s)
  | sizeEnd (s : ArraySize) : Touches (.size s) (.mark .rbracket)

/-- From `l` through `ls` to `m`, each token beside the next. -/
inductive Path : Lexeme → List Lexeme → Lexeme → Prop where
  | nil {l : Lexeme} : Path l [] l
  | cons {l l' m : Lexeme} {ls : List Lexeme} (hTouches : Touches l l') (hRest : Path l' ls m) :
      Path l (l' :: ls) m

variable {l m : Lexeme} {ls : List Lexeme}

theorem Path.append {n : Lexeme} {ls' : List Lexeme} (h : Path l ls m) (h' : Path m ls' n) :
    Path l (ls ++ ls') n := by
  induction h with
  | nil => exact h'
  | cons hTouches _ ih => exact .cons hTouches (ih h')

theorem path_items (items : List Item) {l : Lexeme} (hl : l.ends = true) :
    ∃ m, Path l (itemLexemes items) m ∧ m.ends = true := by
  induction items generalizing l with
  | nil => exact ⟨l, .nil, hl⟩
  | cons item items ih =>
    cases item with
    | star =>
      obtain ⟨m, hPath, hm⟩ := @ih (.mark .star) rfl
      exact ⟨m, .cons (.behind hl rfl) hPath, hm⟩
    | size s =>
      obtain ⟨m, hPath, hm⟩ := @ih (.mark .rbracket) rfl
      exact ⟨m, .cons (.behind hl rfl) (.cons (.size s) (.cons (.sizeEnd s) hPath)), hm⟩

theorem path_names (qualifiers : List TypeName) (n : TypeName) :
    ∃ n', Path (.name n) (qualifierLexemes qualifiers) (.name n') := by
  induction qualifiers generalizing n with
  | nil => exact ⟨n, .nil⟩
  | cons part qualifiers ih =>
    obtain ⟨n', hPath⟩ := ih part
    exact ⟨n', .cons (.qualify n) (.cons (.qualifier part) hPath)⟩

mutual

theorem path_type (type : TypeExpr) {l : Lexeme} (hl : l.opens = true) :
    ∃ m, Path l type.lexemes m ∧ m.ends = true := by
  match type with
  | .named head qualifiers [] items =>
    obtain ⟨n, hNames⟩ := path_names qualifiers head
    obtain ⟨m, hItems, hm⟩ := @path_items items (.name n) rfl
    exact ⟨m, .cons (.start hl (.inr ⟨head, rfl⟩)) (hNames.append hItems), hm⟩
  | .named head qualifiers (arg :: args) items =>
    obtain ⟨n, hNames⟩ := path_names qualifiers head
    obtain ⟨a, hArg, ha⟩ := @path_type arg (.mark .less) rfl
    obtain ⟨b, hArgs, hb⟩ := path_more args ha
    obtain ⟨m, hItems, hm⟩ := @path_items items (.mark .greater) rfl
    exact ⟨m, .cons (.start hl (.inr ⟨head, rfl⟩)) (hNames.append (.cons (.apply n)
      (hArg.append (hArgs.append (.cons (.behind hb rfl) hItems))))), hm⟩
  | .function params ret items =>
    obtain ⟨p, hParams, hp⟩ := path_list params
    obtain ⟨r, hRet, hr⟩ := @path_type ret (.mark .arrow) rfl
    obtain ⟨m, hItems, hm⟩ := path_items items hr
    exact ⟨m, .cons (.start hl (.inl rfl)) (.cons .fn (hParams.append (.cons hp (.cons .arrow
      (hRet.append hItems))))), hm⟩

theorem path_list (types : List TypeExpr) :
    ∃ m, Path (.mark .lparen) (listLexemes types) m ∧ Touches m (.mark .rparen) := by
  match types with
  | [] =>
    exact ⟨_, .nil, .noParams⟩
  | type :: types =>
    obtain ⟨a, hType, ha⟩ := @path_type type (.mark .lparen) rfl
    obtain ⟨m, hMore, hm⟩ := path_more types ha
    exact ⟨m, hType.append hMore, .behind hm rfl⟩

theorem path_more (types : List TypeExpr) {l : Lexeme} (hl : l.ends = true) :
    ∃ m, Path l (moreLexemes types) m ∧ m.ends = true := by
  match types with
  | [] =>
    exact ⟨l, .nil, hl⟩
  | type :: types =>
    obtain ⟨a, hType, ha⟩ := @path_type type (.mark .comma) rfl
    obtain ⟨m, hMore, hm⟩ := path_more types ha
    exact ⟨m, .cons (.behind hl rfl) (hType.append hMore), hm⟩

end

theorem Lexeme.text_cons (l : Lexeme) : ∃ c w, l.text = c :: w ∧ (isWordChar c = true ↔
    ∀ m, l ≠ .mark m) := by
  cases l with
  | fn => exact ⟨'f', ['n'], rfl, by simp [show isWordChar 'f' = true by decide]⟩
  | name n =>
    obtain ⟨c, w, hText, hStart⟩ := n.2.1.1
    exact ⟨c, w, hText, by simp [isWordChar_of_start hStart]⟩
  | size s =>
    obtain ⟨c, w, hText, hDigit, -⟩ := s.2.cons
    exact ⟨c, w, hText, by simp [isWordChar_of_digit hDigit]⟩
  | mark m =>
    cases m <;> exact ⟨_, _, rfl, by simp; decide⟩

theorem opens_joinsChar (h : l.opens = true) (hc : isWordChar c = true) : joinsChar l c = false
    := by
  simp only [Lexeme.opens, Bool.or_eq_true, decide_eq_true_eq] at h
  rcases h with ((rfl | rfl) | rfl) | rfl
  · simp only [joinsChar, Bool.or_eq_false_iff, decide_eq_false_iff_not]
    exact ⟨wordChar_ne hc (by decide), wordChar_ne hc (by decide)⟩
  · rfl
  · rfl
  · rfl

theorem follows_text (h : l.follows = true) :
    ∃ c w, l.text = c :: w ∧ (c = '>' ↔ l = .mark .greater) ∧ isWordChar c = false ∧ c ≠ '=' := by
  simp only [Lexeme.follows, Bool.or_eq_true, decide_eq_true_eq] at h
  rcases h with (((rfl | rfl) | rfl) | rfl) | rfl
  · exact ⟨'>', [], rfl, by decide, by decide, by decide⟩
  · exact ⟨'*', [], rfl, by decide, by decide, by decide⟩
  · exact ⟨'[', [], rfl, by decide, by decide, by decide⟩
  · exact ⟨',', [], rfl, by decide, by decide, by decide⟩
  · exact ⟨')', [], rfl, by decide, by decide, by decide⟩

theorem ends_joinsChar (h : l.ends = true) (hc : isWordChar c = false) (hEquals : c ≠ '=')
    (hGreater : l = .mark .greater → c ≠ '>') : joinsChar l c = false := by
  cases l with
  | fn => cases h
  | name n => exact hc
  | size s => cases h
  | mark m =>
    cases m <;> first | rfl | cases h
    · simp [joinsChar, hEquals, hGreater rfl]
    · simp [joinsChar, hEquals]

theorem Touches.apart {l' : Lexeme} (h : Touches l l')
    (hGlued : ¬(l = .mark .greater ∧ l' = .mark .greater)) (after : Text) :
    Apart l (l'.text ++ after) := by
  obtain ⟨c, w, hText, hWord⟩ := l'.text_cons
  intro d hd
  rw [hText] at hd
  cases hd
  cases h with
  | start hOpens hStart =>
    refine opens_joinsChar hOpens (hWord.mpr fun m => ?_)
    rcases hStart with rfl | ⟨n, rfl⟩ <;> exact nofun
  | behind hEnds hFollows =>
    obtain ⟨d, w', hText', hGreater, hNoWord, hEquals⟩ := follows_text hFollows
    cases hText.symm.trans hText'
    exact ends_joinsChar hEnds hNoWord hEquals fun hl hc => hGlued ⟨hl, hGreater.mp hc⟩
  | qualify n =>
    cases hText
    rfl
  | qualifier n => rfl
  | apply n =>
    cases hText
    rfl
  | fn =>
    cases hText
    rfl
  | noParams => rfl
  | arrow => rfl
  | size s => rfl
  | sizeEnd s =>
    cases hText
    rfl

-- ---
-- Writings
-- ---

abbrev Writing := List (Text × Lexeme)

def Writing.text (ps : Writing) : Text := ps.flatMap fun p => p.1 ++ p.2.text

/-- All white space is allowed where it stands, from a bracket depth on. -/
def Writing.Spaced : Nat → Writing → Prop
  | _, [] => True
  | depth, (gap, l) :: ps => IsGap depth gap ∧ Writing.Spaced (depthAfter l.type depth) ps

/-- Two closing marks stand side by side with nothing between them. -/
def Writing.Glued : Writing → Prop
  | (_, l) :: (gap, l') :: ps =>
    (l = .mark .greater ∧ gap = [] ∧ l' = .mark .greater) ∨ Writing.Glued ((gap, l') :: ps)
  | _ => False

instance (depth : Nat) (gap : Text) : Decidable (IsGap depth gap) :=
  List.decidableBAll _ gap

def Writing.decSpaced : (depth : Nat) → (ps : Writing) → Decidable (ps.Spaced depth)
  | _, [] => .isTrue trivial
  | depth, (gap, l) :: ps =>
    have := Writing.decSpaced (depthAfter l.type depth) ps
    inferInstanceAs (Decidable (IsGap depth gap ∧ Writing.Spaced (depthAfter l.type depth) ps))

instance (depth : Nat) (ps : Writing) : Decidable (ps.Spaced depth) := Writing.decSpaced depth ps

def Writing.decGlued : (ps : Writing) → Decidable ps.Glued
  | [] => .isFalse id
  | [_] => .isFalse id
  | (_, l) :: (gap, l') :: ps =>
    have := Writing.decGlued ((gap, l') :: ps)
    inferInstanceAs (Decidable ((l = .mark .greater ∧ gap = [] ∧ l' = .mark .greater) ∨
      Writing.Glued ((gap, l') :: ps)))

instance (ps : Writing) : Decidable ps.Glued := ps.decGlued

structure WritingOf (type : TypeExpr) (depth : Nat) (ps : Writing) : Prop where
  tokens : ps.map Prod.snd = type.lexemes
  spaced : ps.Spaced depth

def depthBehind (depth : Nat) (ls : List Lexeme) : Nat :=
  ls.foldl (fun depth l => depthAfter l.type depth) depth

/-- The parser is about to read what `lx` stands in front of. -/
structure Starts (p : State) (lx : Lexer) : Prop where
  currentToken : p.currentToken = (nextToken lx).1
  peekToken : p.peekToken = (nextToken (nextToken lx).2).1
  lexer : p.lexer = (nextToken (nextToken lx).2).2

theorem starts_create (lx : Lexer) (reporter : Option ErrorReporter) :
    Starts (State.create lx reporter) lx := by
  unfold State.create
  dsimp only
  split_ifs <;> exact ⟨rfl, rfl, rfl⟩

variable {p : State} {lx : Lexer}

theorem Starts.advance (h : Starts p lx) (hMore : p.currentToken.type ≠ .eof) :
    Starts p.advance (nextToken lx).2 := by
  obtain ⟨hLexer, hCurrent, hPeek⟩ := advance_window hMore
  refine ⟨hCurrent.trans h.peekToken, ?_, ?_⟩
  · rw [hPeek, h.lexer]
  · rw [hLexer, h.lexer]

variable {ts : List Token}

theorem Starts.headType_eq (h : Starts p lx) (hStream : Stream p ts) :
    headType ts = (nextToken lx).1.type := by
  rw [hStream.headType_eq, h.currentToken]

theorem Starts.cons (h : Starts p lx) {ts : List Token} (hStream : Stream p ts)
    (hMore : (nextToken lx).1.type ≠ .eof) :
    ∃ us, ts = (nextToken lx).1 :: us ∧ Starts p.advance (nextToken lx).2 ∧
      Stream p.advance us := by
  rw [← h.currentToken] at hMore
  cases hStream with
  | done hEnd => exact absurd hEnd hMore
  | @more _ us _ hRest => exact ⟨us, by rw [h.currentToken], h.advance hMore, hRest⟩

theorem lexeme_type_ne_eof (l : Lexeme) : l.type ≠ .eof := by
  cases l with
  | fn => exact nofun
  | name n => exact n.type_ne rfl rfl
  | size s => exact nofun
  | mark m => cases m <;> exact nofun

theorem Starts.lexeme (h : Starts p lx) (hStream : Stream p ts) {gap after : Text}
    (hGap : IsGap lx.continuationDepth gap) (hRest : lx.rest = gap ++ (l.text ++ after))
    (hApart : Apart l after) :
    ∃ t us lx', ts = t :: us ∧ t.type = l.type ∧ cString (t.value.getD []) = l.text ∧
      lx'.rest = after ∧ lx'.continuationDepth = depthAfter l.type lx.continuationDepth ∧
      Starts p.advance lx' ∧ Stream p.advance us := by
  obtain ⟨c, w, hText, hLine, hSlash, hSpace, -⟩ := @lexToken_lexeme
    { lx with source := l.text ++ after, position := 0 } after l rfl hApart
  rw [hText] at hRest
  obtain ⟨lx₁, hRest₁, hDepth₁, hNext⟩ := nextToken_gap hGap hRest hSpace hLine hSlash
  obtain ⟨c', w', hText', -, -, -, hCut⟩ := @lexToken_lexeme lx₁ after l
    (by rw [hText]; exact hRest₁) hApart
  cases hText.symm.trans hText'
  have hNext : nextToken lx = lexToken c (w ++ after) lx₁ := hNext
  rw [← hNext, hDepth₁] at hCut
  have hMore : (nextToken lx).1.type ≠ .eof := by
    rw [hCut.type]
    exact lexeme_type_ne_eof l
  obtain ⟨us, hTokens, hStarts, hStream'⟩ := h.cons hStream hMore
  exact ⟨_, us, _, hTokens, hCut.type, hCut.value, hCut.rest, hCut.depth_eq, hStarts, hStream'⟩

theorem apart_space (l : Lexeme) (h : isSpace c = true) : joinsChar l c = false := by
  have hNoWord : isWordChar c = false := by
    by_contra hWord
    rw [Bool.not_eq_false] at hWord
    exact absurd h (by simp [isSpace_wordChar hWord])
  have hNe : ∀ d, isSpace d = false → c ≠ d := by
    rintro d hd rfl
    rw [h] at hd
    cases hd
  have hEquals := hNe '=' (by decide)
  have hLess := hNe '<' (by decide)
  have hGreater := hNe '>' (by decide)
  have hDot := hNe '.' (by decide)
  cases l with
  | fn => exact hNoWord
  | name n => exact hNoWord
  | size s => simp [joinsChar, hNoWord, hDot]
  | mark m => cases m <;> simp [joinsChar, hEquals, hLess, hGreater]

variable {tail : Text} {ps : Writing}

theorem Writing.apart {depth : Nat} (hPath : Path l (ps.map Prod.snd) m) (hSpaced : ps.Spaced depth)
    (hTail : Apart m tail) (gap : Text) :
    Apart l (ps.text ++ tail) ∨
      ∃ rest, l = .mark .greater ∧ ps.text = '>' :: rest ∧ Writing.Glued ((gap, l) :: ps) := by
  cases ps with
  | nil =>
    cases hPath
    exact .inl hTail
  | cons pair ps =>
    obtain ⟨space, l'⟩ := pair
    cases space with
    | cons c space =>
      refine .inl fun d hd => ?_
      cases hd
      exact apart_space l (hSpaced.1 c (by simp)).1
    | nil =>
      by_cases hBoth : l = .mark .greater ∧ l' = .mark .greater
      · obtain ⟨rfl, rfl⟩ := hBoth
        exact .inr ⟨_, rfl, rfl, .inl ⟨rfl, rfl, rfl⟩⟩
      · cases hPath with
        | cons hTouches =>
          have hApart := hTouches.apart hBoth (Writing.text ps ++ tail)
          refine .inl ?_
          show Apart l (([] ++ l'.text ++ Writing.text ps) ++ tail)
          rwa [nil_append, append_assoc]

theorem Writing.glued_of_apart {gap : Text} (hApart : Apart l (ps.text ++ tail)) :
    Writing.Glued ((gap, l) :: ps) ↔ ps.Glued := by
  cases ps with
  | nil => exact Iff.rfl
  | cons pair ps =>
    obtain ⟨space, l'⟩ := pair
    refine or_iff_right ?_
    rintro ⟨rfl, rfl, rfl⟩
    have := hApart '>' rfl
    exact absurd this (by decide)

/-- **The lexer cuts a writing into its tokens**, up to the first two closing
marks that are glued. -/
theorem Starts.tokens (h : Starts p lx) (hStream : Stream p ts) (hPath : Path l (ps.map Prod.snd) m)
    (hSpaced : ps.Spaced lx.continuationDepth) (hRest : lx.rest = ps.text ++ tail)
    (hTail : Apart m tail) :
    (ps.Glued → Breaks (ps.map Prod.snd) ts) ∧
      (¬ ps.Glued → ∃ q lx' us, Shows (ps.map Prod.snd) ts us ∧ Starts q lx' ∧ Stream q us ∧
        lx'.rest = tail ∧
        lx'.continuationDepth = depthBehind lx.continuationDepth (ps.map Prod.snd)) := by
  induction ps generalizing p lx l ts with
  | nil => exact ⟨False.elim, fun _ => ⟨p, lx, ts, .nil, h, hStream, hRest, rfl⟩⟩
  | cons pair ps ih =>
    obtain ⟨gap, l'⟩ := pair
    have hText : lx.rest = gap ++ (l'.text ++ (Writing.text ps ++ tail)) := by
      rw [hRest]
      simp [Writing.text]
    cases hPath with
    | cons hTouches hPath =>
      rcases Writing.apart hPath hSpaced.2 hTail gap with hApart | ⟨rest, rfl, hClose, hGlued⟩
      · rw [Writing.glued_of_apart hApart]
        obtain ⟨t, us, lx', rfl, hType, hValue, hRest', hDepth, hStarts, hStream'⟩ :=
          h.lexeme hStream hSpaced.1 hText hApart
        have hSpaced' := hSpaced.2
        rw [← hDepth] at hSpaced'
        have hNext := ih hStarts hStream' hPath hSpaced' hRest'
        refine ⟨fun hGlued => .later hType hValue (hNext.1 hGlued), fun hFree => ?_⟩
        obtain ⟨q, lx'', vs, hShows, hQ, hQStream, hQRest, hQDepth⟩ := hNext.2 hFree
        refine ⟨q, lx'', vs, .cons hType hValue hShows, hQ, hQStream, hQRest, ?_⟩
        rw [hQDepth, hDepth]
        rfl
      · refine ⟨fun _ => .here ?_, fun hFree => absurd hGlued hFree⟩
        rw [hClose] at hText
        obtain ⟨lx', -, -, hNext⟩ := nextToken_gap (c := '>') hSpaced.1 hText (by decide)
          (by decide) (by decide)
        rw [h.headType_eq hStream, hNext]
        exact lexToken_glued

-- ---
-- The annotation
-- ---

/-- Behind an annotation, at a bracket depth, stands nothing that goes on with it. -/
def Closes (depth : Nat) (tail : Text) : Prop :=
  ∀ lx : Lexer, lx.rest = tail → lx.continuationDepth = depth →
    (nextToken lx).1.type ≠ .dot ∧ (nextToken lx).1.type ≠ .lessThan ∧
      (nextToken lx).1.type ≠ .multiply ∧ (nextToken lx).1.type ≠ .lbracket ∧
      (nextToken lx).1.type ≠ .error

theorem depthBehind_append (depth : Nat) (ls ls' : List Lexeme) :
    depthBehind depth (ls ++ ls') = depthBehind (depthBehind depth ls) ls' := foldl_append

theorem depthAfter_name (n : TypeName) (depth : Nat) : depthAfter (wordType n.1) depth = depth := by
  have hName := n.2.2
  generalize wordType n.1 = t at hName ⊢
  cases t <;> first | rfl | rcases hName with h | h <;> cases h

theorem depthBehind_items (depth : Nat) (items : List Item) :
    depthBehind depth (itemLexemes items) = depth := by
  induction items with
  | nil => rfl
  | cons item items ih =>
    have hItem : depthBehind depth item.lexemes = depth := by cases item <;> rfl
    rw [itemLexemes, flatMap_cons, depthBehind_append, hItem]
    exact ih

theorem depthBehind_names (depth : Nat) (qualifiers : List TypeName) :
    depthBehind depth (qualifierLexemes qualifiers) = depth := by
  induction qualifiers with
  | nil => rfl
  | cons part qualifiers ih =>
    have hPart : depthBehind depth [.mark .dot, .name part] = depth := depthAfter_name part depth
    rw [qualifierLexemes, flatMap_cons, depthBehind_append, hPart]
    exact ih

mutual

theorem depthBehind_type (depth : Nat) (type : TypeExpr) :
    depthBehind depth type.lexemes = depth := by
  match type with
  | .named head qualifiers [] items =>
    show depthBehind (depthAfter (wordType head.1) depth)
      (qualifierLexemes qualifiers ++ itemLexemes items) = depth
    rw [depthAfter_name, depthBehind_append, depthBehind_names, depthBehind_items]
  | .named head qualifiers (arg :: args) items =>
    show depthBehind (depthAfter (wordType head.1) depth) (qualifierLexemes qualifiers ++
      ([.mark .less] ++ (arg.lexemes ++ (moreLexemes args ++
        ([.mark .greater] ++ itemLexemes items))))) = depth
    simp only [depthAfter_name, depthBehind_append, depthBehind_names, depthBehind_type _ arg,
      depthBehind_more _ args, depthBehind_items]
    rfl
  | .function params ret items =>
    show depthBehind (depth + 1) (listLexemes params ++ ([.mark .rparen, .mark .arrow] ++
      (ret.lexemes ++ itemLexemes items))) = depth
    simp only [depthBehind_append, depthBehind_list _ params, depthBehind_type _ ret,
      depthBehind_items]
    rfl

theorem depthBehind_list (depth : Nat) (types : List TypeExpr) :
    depthBehind depth (listLexemes types) = depth := by
  match types with
  | [] => rfl
  | type :: types =>
    rw [listLexemes, depthBehind_append, depthBehind_type _ type, depthBehind_more _ types]

theorem depthBehind_more (depth : Nat) (types : List TypeExpr) :
    depthBehind depth (moreLexemes types) = depth := by
  match types with
  | [] => rfl
  | type :: types =>
    show depthBehind depth (type.lexemes ++ moreLexemes types) = depth
    rw [depthBehind_append, depthBehind_type _ type, depthBehind_more _ types]

end

theorem Path.getLast (h : Path l ls m) (hSome : ls ≠ []) : m ∈ ls.getLast? := by
  induction h with
  | nil => exact absurd rfl hSome
  | @cons l l' m ls _ hRest ih =>
    cases ls with
    | nil =>
      cases hRest
      rfl
    | cons l'' ls =>
      exact ih (cons_ne_nil _ _)

/-- A type stands in front of the parser, written as `ps`, with `tail` behind it. -/
structure Occurs (type : TypeExpr) (ps : Writing) (tail : Text) (p : State) : Prop where
  calm : p.hasError = false
  written : ∃ lx : Lexer, Starts p lx ∧ lx.rest = ps.text ++ tail ∧
    WritingOf type lx.continuationDepth ps ∧ Closes lx.continuationDepth tail
  apart : ∀ l ∈ type.lexemes.getLast?, Apart l tail

/-- **An annotation is read, and its text is returned, exactly if no two closing
marks are glued.** -/
theorem annotation_read_iff {type : TypeExpr} (hWritten : type.Written)
    (hOccurs : Occurs type ps tail p) :
    (∃ fuel q, typeAnnotationText fuel p = some (some type.text, q) ∧ Calm p q) ↔ ¬ ps.Glued := by
  obtain ⟨lx, hStarts, hRest, hWriting, hCloses⟩ := hOccurs.written
  obtain ⟨ts, hStream⟩ := stream_exists p
  obtain ⟨m, hPath, -⟩ := @path_type type (.mark .comma) rfl
  obtain ⟨l, ls, hLexemes, -⟩ := lexemes_start type
  have hLast := hOccurs.apart m (hPath.getLast (by rw [hLexemes]; exact cons_ne_nil _ _))
  rw [← hWriting.tokens] at hPath
  obtain ⟨hGlued, hFree⟩ := hStarts.tokens hStream hPath hWriting.spaced hRest hLast
  rw [hWriting.tokens] at hGlued hFree
  constructor
  · rintro ⟨fuel, q, hRun, hCalm⟩ hBad
    have hFollows := (typeAnnotationText_follows false fuel).reads ts p hStream hOccurs.calm
    have hSlip := slips_type hWritten (hGlued hBad) (Nat.lt_succ_self _)
    by_cases hStuck : typeAnnotationReader false fuel ts = .stuck
    · rw [hStuck] at hFollows
      cases hRun.symm.trans hFollows
    · have hSame := Reader.Le.agree (typeAnnotationReader_le false) hStuck (by rw [hSlip]; nofun)
      rw [hSame, hSlip] at hFollows
      have hLess := hFollows _ _ hRun
      rw [hCalm.errorCount] at hLess
      exact absurd hLess (Nat.lt_irrefl _)
  · intro hFine
    obtain ⟨q, lx', us, hShows, hQ, hQStream, hQRest, hQDepth⟩ := hFree hFine
    rw [depthBehind_type] at hQDepth
    have hStops : Stops us := by
      rw [Stops, hQ.headType_eq hQStream]
      exact hCloses lx' hQRest hQDepth
    have hRead := typeAnnotationReader_lexemes hWritten hShows hStops (Nat.lt_succ_self _)
    have hFollows :=
      (typeAnnotationText_follows false (ts.length + 1)).reads ts p hStream hOccurs.calm
    rw [hRead] at hFollows
    obtain ⟨q', hRun, -, hCalm⟩ := hFollows
    exact ⟨ts.length + 1, q', hRun, hCalm⟩

end Mettle.Parser
