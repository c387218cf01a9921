import Mathlib.Data.List.TakeWhile
import Mathlib.Data.Nat.Find
import Mettle.Lexing.Lexer

/-!
# Mettle — token positions

Where the lexer says a token stands, against where it stands in the text. The
lexer counts lines and columns while it reads: a line end that it passes as
white space, in a comment or as a token starts a line, and every other character
is one column. A string literal is the exception, its line ends are columns too.

`Reached` is what a parser does with the lexer: it reads on, peeks, and goes back
to a place it saved.
-/

namespace Mettle.Lexing

open List Mettle.Lib

-- ---
-- Lines and columns of a text
-- ---

/-- The line of a character with the text `t` before it. -/
def lineAt (t : Text) : Nat := 1 + t.count '\n'

/-- The column of a character with the text `t` before it: what follows the last
line end, and one. -/
def columnAt (t : Text) : Nat := 1 + (t.reverse.takeWhile (· ≠ '\n')).length

theorem lineAt_append (t u : Text) : lineAt (t ++ u) = lineAt t + u.count '\n' := by
  rw [lineAt, lineAt, count_append, Nat.add_assoc]

variable {t : Text}

theorem columnAt_append {u : Text} (h : '\n' ∉ u) : columnAt (t ++ u) = columnAt t + u.length := by
  have hAll : ∀ c ∈ u.reverse, decide (c ≠ '\n') = true := by
    intro c hc
    refine decide_eq_true ?_
    rintro rfl
    exact h (mem_reverse.mp hc)
  rw [columnAt, columnAt, reverse_append, takeWhile_append_of_pos hAll,
    length_append, length_reverse]
  omega

theorem columnAt_line_end (t : Text) : columnAt (t ++ ['\n']) = 1 := by
  simp [columnAt]

-- ---
-- Where the next token starts
-- ---

/-- The lexer past the white space and the comments at `lx`. -/
def skipBlank : Nat → Lexer → Lexer
  | 0, lx => lx
  | fuel + 1, start =>
    let lx := skipSpace start.rest start
    match lx.rest with
    | [] => lx
    | c :: after =>
      if c = '\n' then lx
      else if c = '/' ∧ after[0]? = some '/' then
        skipBlank fuel (skipLineComment (after.drop 1) (lx.skip 2))
      else if c = '/' ∧ after[0]? = some '*' then
        match skipBlockComment 1 (after.drop 1) (lx.skip 2) with
        | (0, behind) => skipBlank fuel behind
        | (_ + 1, _) => lx
      else lx

def tokenStart (lx : Lexer) : Nat := (skipBlank (lx.rest.length + 1) lx).position

def tokenText (lx : Lexer) : Text :=
  (lx.source.drop (tokenStart lx)).take ((nextToken lx).2.position - tokenStart lx)

def HoldsLineEnd (lx : Lexer) : Prop :=
  (nextToken lx).1.type = .string ∧ '\n' ∈ tokenText lx

instance (lx : Lexer) : Decidable (HoldsLineEnd lx) := by
  unfold HoldsLineEnd
  infer_instance

-- ---
-- Peeking and going back
-- ---

/-- Back to a saved place: the four fields that `lexer_peek_token` and
`parser_restore_state` put back. -/
def Lexer.restore (lx saved : Lexer) : Lexer :=
  { lx with
    position := saved.position
    line := saved.line
    column := saved.column
    continuationDepth := saved.continuationDepth }

/-- `lexer_peek_token`. -/
def peekToken (lx : Lexer) : Token × Lexer := ((nextToken lx).1, (nextToken lx).2.restore lx)

/-- The lexer after `n` tokens of a text. -/
def lexerAt (source : Text) : Nat → Lexer
  | 0 => .create source
  | n + 1 => (nextToken (lexerAt source n)).2

def tokenAt (source : Text) (n : Nat) : Token := (nextToken (lexerAt source n)).1

/-- The lexers that a parser of `source` comes to, with the number of tokens that
are behind. -/
inductive Reached (source : Text) : Nat → Lexer → Prop
  | create : Reached source 0 (.create source)
  | next {n : Nat} {lx : Lexer} : Reached source n lx → Reached source (n + 1) (nextToken lx).2
  | peek {n : Nat} {lx : Lexer} : Reached source n lx → Reached source n (peekToken lx).2
  | restore {m n : Nat} {lx saved : Lexer} : Reached source m lx → Reached source n saved →
      Reached source n (lx.restore saved)

variable {lx : Lexer}

theorem Lexer.restore_eq {saved : Lexer} (h : lx.source = saved.source) :
    lx.restore saved = saved := by
  unfold Lexer.restore
  rw [h]

theorem lexerAt_source (source : Text) (n : Nat) : (lexerAt source n).source = source := by
  induction n with
  | zero => rfl
  | succ n ih => exact (nextToken_ahead _).source.trans ih

theorem lexerAt_rest (source : Text) (n : Nat) (h : ∀ k < n, (tokenAt source k).type ≠ .eof) :
    (lexerAt source n).rest.length + n ≤ source.length := by
  induction n with
  | zero => exact (length_drop ..).trans_le (Nat.sub_le _ _)
  | succ n ih =>
    have hRest := ih fun k hk => h k (by omega)
    have hLess := nextToken_rest_length_lt (h n (Nat.lt_succ_self n))
    rw [lexerAt]
    omega

/-- **Reading on comes to the end**: there are at most as many tokens as characters, and each one
takes the lexer further. -/
theorem tokens_end (source : Text) : ∃ n ≤ source.length, (tokenAt source n).type = .eof ∧
    ∀ k < n, (tokenAt source k).type ≠ .eof ∧
      (lexerAt source k).position < (lexerAt source (k + 1)).position := by
  have hEnds : ∃ n, (tokenAt source n).type = .eof := by
    by_contra hNever
    have hRest := lexerAt_rest source (source.length + 1) fun k _ hEof => hNever ⟨k, hEof⟩
    omega
  have hBefore : ∀ k < Nat.find hEnds, (tokenAt source k).type ≠ .eof := fun k hk =>
    Nat.find_min hEnds hk
  have hRest := lexerAt_rest source _ hBefore
  refine ⟨Nat.find hEnds, by omega, Nat.find_spec hEnds, fun k hk => ⟨hBefore k hk, ?_⟩⟩
  exact ((nextToken_moves (lexerAt source k)).2 (hBefore k hk)).1.position

variable {n : Nat}

/-- **Peeking and going back leave no trace.** -/
theorem Reached.eq_lexerAt {source : Text} (h : Reached source n lx) : lx = lexerAt source n := by
  induction h with
  | create => rfl
  | next _ ih => rw [ih, lexerAt]
  | peek _ ih => exact (Lexer.restore_eq (nextToken_ahead _).source).trans ih
  | restore _ _ ihLexer ihSaved =>
    refine (Lexer.restore_eq ?_).trans ihSaved
    rw [ihLexer, ihSaved, lexerAt_source, lexerAt_source]

-- ---
-- Counting while reading
-- ---

def Lexer.behind (lx : Lexer) : Text := lx.source.take lx.position

/-- The lexer stands inside its text and has missed `h` line ends; as long as
that is none, line and column are those of the text behind. -/
structure Tracks (h : Nat) (lx : Lexer) : Prop where
  inside : lx.position ≤ lx.source.length
  line : lx.line + h = lineAt lx.behind
  column : h = 0 → lx.column = columnAt lx.behind

theorem tracks_create (source : Text) : Tracks 0 (.create source) := by
  refine ⟨Nat.zero_le _, ?_, fun _ => ?_⟩ <;> simp [Lexer.create, Lexer.behind, lineAt, columnAt]

theorem behind_eq {lx' : Lexer} {t r : Text} (hInside : lx.position ≤ lx.source.length)
    (hRest : lx.rest = t ++ r) (hSource : lx'.source = lx.source)
    (hPosition : lx'.position = lx.position + t.length) :
    lx'.position ≤ lx'.source.length ∧ lx'.behind = lx.behind ++ t := by
  have hWhole : lx.source = lx.behind ++ (t ++ r) := by
    rw [← hRest, Lexer.behind, Lexer.rest, take_append_drop]
  have hLength : lx.behind.length = lx.position := by
    rw [Lexer.behind, length_take, Nat.min_eq_left hInside]
  constructor
  · rw [hSource, hPosition, hWhole, length_append, length_append, hLength]
    omega
  · rw [Lexer.behind, hSource, hPosition, hWhole, ← append_assoc,
      take_left' (by rw [length_append, hLength])]

variable {h : Nat}
variable {r : Text}

theorem Tracks.skip (hTracks : Tracks h lx) (hRest : lx.rest = t ++ r) (hLength : t.length = n) :
    Tracks (h + t.count '\n') (lx.skip n) := by
  obtain ⟨hInside, hBehind⟩ :=
    @behind_eq lx (lx.skip n) t r hTracks.inside hRest rfl (by rw [Lexer.skip_position, hLength])
  refine ⟨hInside, ?_, fun hNone => ?_⟩
  · rw [hBehind, lineAt_append, ← hTracks.line]
    exact (Nat.add_assoc _ _ _).symm
  · have hHeld : '\n' ∉ t := count_eq_zero.mp (by omega)
    rw [hBehind, columnAt_append hHeld, ← hTracks.column (by omega), hLength]
    rfl

theorem Tracks.skip_of_notMem (hTracks : Tracks h lx) (hRest : lx.rest = t ++ r)
    (hLength : t.length = n) (hHeld : '\n' ∉ t) : Tracks h (lx.skip n) := by
  have := hTracks.skip hRest hLength
  rwa [count_eq_zero.mpr hHeld, Nat.add_zero] at this

variable {c : Char}

theorem Tracks.skip_one (hTracks : Tracks h lx) (hRest : lx.rest = c :: r) (hChar : c ≠ '\n') :
    Tracks h (lx.skip 1) :=
  hTracks.skip_of_notMem (t := [c]) hRest rfl fun hMem => hChar (mem_singleton.mp hMem).symm

theorem Tracks.nextLine (hTracks : Tracks h lx) (hRest : lx.rest = '\n' :: r) : Tracks h lx.nextLine
    := by
  obtain ⟨hInside, hBehind⟩ :=
    @behind_eq lx lx.nextLine ['\n'] r hTracks.inside hRest rfl rfl
  refine ⟨hInside, ?_, fun _ => ?_⟩
  · rw [hBehind, lineAt_append, ← hTracks.line]
    show lx.line + 1 + h = _
    simp only [count_singleton_self]
    omega
  · rw [hBehind, columnAt_line_end]
    rfl

theorem Tracks.withDepth (hTracks : Tracks h lx) (depth : Nat) :
    Tracks h { lx with continuationDepth := depth } :=
  ⟨hTracks.inside, hTracks.line, hTracks.column⟩

-- ---
-- White space and comments
-- ---

theorem Lexer.rest_skip_one (h : lx.rest = c :: r) : (lx.skip 1).rest = r := by
  rw [Lexer.rest_skip, h, drop_one, tail_cons]

variable {d : Char}

theorem Lexer.rest_skip_two (h : lx.rest = c :: d :: r) : (lx.skip 2).rest = r := by
  rw [Lexer.rest_skip, h, drop_succ_cons, drop_one, tail_cons]

theorem Lexer.rest_nextLine_of_cons (h : lx.rest = c :: r) : lx.nextLine.rest = r := by
  rw [Lexer.rest_nextLine, h, drop_one, tail_cons]

theorem skipSpace_tracks (text : Text) (hTracks : Tracks h lx) (hRest : lx.rest = text) :
    Tracks h (skipSpace text lx) := by
  induction text generalizing lx with
  | nil => exact hTracks
  | cons c rest ih =>
    unfold skipSpace
    split_ifs with hBlank hLine hDepth
    · exact hTracks
    · subst hLine
      exact ih (hTracks.nextLine hRest) (Lexer.rest_nextLine_of_cons hRest)
    · exact hTracks
    · exact ih (hTracks.skip_one hRest hLine) (Lexer.rest_skip_one hRest)

theorem skipLineComment_tracks (text : Text) (hTracks : Tracks h lx) (hRest : lx.rest = text) :
    Tracks h (skipLineComment text lx) := by
  induction text generalizing lx with
  | nil => exact hTracks
  | cons c rest ih =>
    unfold skipLineComment
    split_ifs with hLine
    · exact hTracks
    · exact ih (hTracks.skip_one hRest hLine) (Lexer.rest_skip_one hRest)

theorem Tracks.skip_two (hTracks : Tracks h lx) (hRest : lx.rest = c :: d :: r) (hFirst : c ≠ '\n')
    (hSecond : d ≠ '\n') : Tracks h (lx.skip 2) :=
  hTracks.skip_of_notMem (t := [c, d]) hRest rfl (by simp [hFirst.symm, hSecond.symm])

theorem skipBlockComment_tracks (depth : Nat) (text : Text) (hTracks : Tracks h lx)
    (hRest : lx.rest = text) :
    Tracks h (skipBlockComment depth text lx).2 := by
  induction depth, text, lx using skipBlockComment.induct with
  | case1 text lx =>
    rw [skipBlockComment]
    exact hTracks
  | case2 depth lx hDepth =>
    cases depth with
    | zero => exact absurd rfl hDepth
    | succ depth => exact hTracks
  | case3 depth c lx =>
    rw [skipBlockComment]
    split_ifs with hLine
    · subst hLine
      exact hTracks.nextLine hRest
    · exact hTracks.skip_one hRest hLine
  | case4 depth c d rest lx hOpen ih =>
    rw [skipBlockComment, if_pos hOpen]
    refine ih (hTracks.skip_two hRest ?_ ?_) (Lexer.rest_skip_two hRest)
    · rw [hOpen.1]; decide
    · rw [hOpen.2]; decide
  | case5 depth c d rest lx hOpen hClose ih =>
    rw [skipBlockComment, if_neg hOpen, if_pos hClose]
    refine ih (hTracks.skip_two hRest ?_ ?_) (Lexer.rest_skip_two hRest)
    · rw [hClose.1]; decide
    · rw [hClose.2]; decide
  | case6 depth d rest lx hOpen hClose ih =>
    exact ih (hTracks.nextLine hRest) (Lexer.rest_nextLine_of_cons hRest)
  | case7 depth c d rest lx hOpen hClose hLine ih =>
    rw [skipBlockComment, if_neg hOpen, if_neg hClose, if_neg hLine]
    exact ih (hTracks.skip_one hRest hLine) (Lexer.rest_skip_one hRest)

-- ---
-- Tokens
-- ---

variable {after : Text} {type : TokenType}

theorem operatorAt_take (h : operatorAt c after = some (type, n)) :
    n ≤ (c :: after).length ∧ '\n' ∉ (c :: after).take n := by
  unfold operatorAt at h
  dsimp only at h
  cases after with
  | nil =>
    split at h <;> (repeat' split at h) <;> cases h <;> simp_all
  | cons d after =>
    cases after with
    | nil => split at h <;> (repeat' split at h) <;> cases h <;> simp_all
    | cons e after => split at h <;> (repeat' split at h) <;> cases h <;> simp_all

theorem Tracks.skip_run {p : Char → Bool} (hTracks : Tracks h lx) (hRest : lx.rest = t ++ r)
    (hHeld : '\n' ∉ t) (hClass : p '\n' = false) (hLength : n = t.length + (r.takeWhile p).length) :
    Tracks h (lx.skip n) := by
  have hSplit : lx.rest = (t ++ r.takeWhile p) ++ r.dropWhile p := by
    rw [append_assoc, takeWhile_append_dropWhile, hRest]
  refine hTracks.skip_of_notMem hSplit (by rw [length_append, hLength]) ?_
  rw [mem_append]
  rintro (hMem | hMem)
  · exact hHeld hMem
  · have := mem_takeWhile_imp hMem
    rw [hClass] at this
    exact Bool.false_ne_true this

theorem lexRadixNumber_tracks {digit : Char → Bool} (message : String) (hTracks : Tracks h lx)
    (hRest : lx.rest = c :: d :: r) (hMark : '\n' ∉ [c, d]) (hClass : digit '\n' = false) :
    Tracks h (lexRadixNumber lx digit message).2 := by
  have hBehind : lx.rest.drop 2 = r := by
    rw [hRest, drop_succ_cons, drop_one, tail_cons]
  unfold lexRadixNumber
  rw [hBehind]
  split
  · exact hTracks.skip_of_notMem (t := [c, d]) hRest rfl hMark
  · exact hTracks.skip_run (t := [c, d]) hRest hMark hClass rfl

theorem lexNumber_tracks (hTracks : Tracks h lx) : Tracks h (lexNumber lx).2 := by
  unfold lexNumber
  split
  · exact lexRadixNumber_tracks _ hTracks (by assumption) (by decide) (by decide)
  · exact lexRadixNumber_tracks _ hTracks (by assumption) (by decide) (by decide)
  · exact lexRadixNumber_tracks _ hTracks (by assumption) (by decide) (by decide)
  · exact lexRadixNumber_tracks _ hTracks (by assumption) (by decide) (by decide)
  · exact hTracks.skip_run (t := []) rfl (by simp) (by decide) (Nat.zero_add _).symm

theorem closeCharLiteral_tracks (start : Lexer) (value : Nat) (hTracks : Tracks h lx) :
    Tracks h (closeCharLiteral start value lx).2 := by
  unfold closeCharLiteral
  split
  · next c rest hRest =>
    split_ifs with hQuote
    · exact hTracks.skip_one hRest (by rw [hQuote]; decide)
    · exact hTracks
  · exact hTracks

theorem lexCharLiteral_tracks (hTracks : Tracks h lx) (hRest : lx.rest = apostrophe :: r) :
    Tracks h (lexCharLiteral lx).2 := by
  have hBody : Tracks h (lx.skip 1) := hTracks.skip_one hRest (by decide)
  have hNotLine : ∀ {c : Char}, ¬(decide (c = '\n') || decide (c = carriageReturn)) = true →
      c ≠ '\n' := by
    rintro c hc rfl
    exact hc rfl
  unfold lexCharLiteral
  simp only
  split
  · exact hBody
  · next c hOne =>
    split_ifs with hEscape hLine
    · exact hBody.skip_one hOne (by rw [hEscape]; decide)
    · exact hBody
    · exact closeCharLiteral_tracks _ _ (hBody.skip_one hOne (hNotLine hLine))
  · next c e rest hMore =>
    split_ifs with hEscape hLine
    · split
      · exact hBody.skip_one hMore (by rw [hEscape]; decide)
      · next value hValue =>
        refine closeCharLiteral_tracks _ _ (hBody.skip_two hMore (by rw [hEscape]; decide) ?_)
        rintro rfl
        cases hValue
    · exact hBody
    · exact closeCharLiteral_tracks _ _ (hBody.skip_one hMore (hNotLine hLine))

theorem lexIdentifierOrKeyword_tracks (hTracks : Tracks h lx) :
    Tracks h (lexIdentifierOrKeyword lx).2 :=
  hTracks.skip_run (t := []) rfl (by simp) (by decide) (Nat.zero_add _).symm

theorem lexStringLiteral_tracks (hTracks : Tracks h lx) :
    (lexStringLiteral lx).2.rest = [] ∧ (lexStringLiteral lx).1.type = .error ∨
    (lexStringLiteral lx).1.type = .string ∧
      Tracks (h + (lx.rest.take ((lexStringLiteral lx).2.position - lx.position)).count '\n')
        (lexStringLiteral lx).2 := by
  unfold lexStringLiteral
  simp only
  split
  · next hEnd => exact .inl ⟨hEnd, rfl⟩
  · next c rest hClose =>
    refine .inr ⟨rfl, ?_⟩
    have hSplit : lx.rest = lx.rest.take (1 + (stringBody (lx.skip 1).rest).2 + 1) ++
          lx.rest.drop (1 + (stringBody (lx.skip 1).rest).2 + 1) := (take_append_drop ..).symm
    have hLong : 1 + (stringBody (lx.skip 1).rest).2 + 1 ≤ lx.rest.length := by
      have hLeft := congrArg length hClose
      rw [Lexer.rest_skip, length_drop, length_cons] at hLeft
      omega
    have hMoved := hTracks.skip hSplit (length_take_of_le hLong)
    have hPosition : lx.position + (1 + (stringBody (lx.skip 1).rest).2) + 1 - lx.position =
        1 + (stringBody (lx.skip 1).rest).2 + 1 := by omega
    show Tracks (h + (lx.rest.take (lx.position + _ + 1 - lx.position)).count '\n') _
    rw [hPosition]
    exact hMoved

theorem wordType_ne_string (word : Text) : wordType word ≠ .string := by
  have hKeywords : ∀ entry ∈ keywords, entry.2 ≠ .string := by decide
  have hAssembly : ∀ entry ∈ assemblyWords, entry.2 ≠ .string := by decide
  unfold wordType
  split
  · next type hFound =>
    obtain ⟨_, _, hSplit, -⟩ := lookup_eq_some_iff.mp hFound
    exact hKeywords (word, type) (by rw [hSplit]; simp)
  · cases hFound : assemblyWords.lookup (word.map Char.toLower) with
    | none => exact fun h => by cases h
    | some type =>
      obtain ⟨_, _, hSplit, -⟩ := lookup_eq_some_iff.mp hFound
      exact hAssembly (word.map Char.toLower, type) (by rw [hSplit]; simp)

theorem operatorAt_ne_string (h : operatorAt c after = some (type, n)) : type ≠ .string := by
  unfold operatorAt at h
  dsimp only at h
  split at h <;> (repeat' split at h) <;> cases h <;> decide

theorem lexNumber_ne_string (lx : Lexer) : (lexNumber lx).1.type ≠ .string := by
  have hRadix : ∀ digit message, (lexRadixNumber lx digit message).1.type ≠ .string := by
    intro digit message
    unfold lexRadixNumber
    split <;> exact fun h => by cases h
  unfold lexNumber
  split
  · exact hRadix _ _
  · exact hRadix _ _
  · exact hRadix _ _
  · exact hRadix _ _
  · exact fun h => by cases h

theorem closeCharLiteral_ne_string (start : Lexer) (value : Nat) (lx : Lexer) :
    (closeCharLiteral start value lx).1.type ≠ .string := by
  unfold closeCharLiteral
  split
  · split_ifs <;> exact fun h => by cases h
  · exact fun h => by cases h

theorem lexCharLiteral_ne_string (lx : Lexer) : (lexCharLiteral lx).1.type ≠ .string := by
  unfold lexCharLiteral
  simp only
  split
  · exact fun h => by cases h
  · split_ifs
    · exact fun h => by cases h
    · exact fun h => by cases h
    · exact closeCharLiteral_ne_string _ _ _
  · split_ifs
    · split
      · exact fun h => by cases h
      · exact closeCharLiteral_ne_string _ _ _
    · exact fun h => by cases h
    · exact closeCharLiteral_ne_string _ _ _

theorem lexToken_place (c : Char) (after : Text) (lx : Lexer) :
    (lexToken c after lx).1.line = lx.line ∧ (lexToken c after lx).1.column = lx.column := by
  have hClose : ∀ value behind, (closeCharLiteral lx value behind).1.line = lx.line ∧
      (closeCharLiteral lx value behind).1.column = lx.column := by
    intro value behind
    unfold closeCharLiteral
    split
    · split_ifs <;> exact ⟨rfl, rfl⟩
    · exact ⟨rfl, rfl⟩
  have hRadix : ∀ digit message, (lexRadixNumber lx digit message).1.line = lx.line ∧
      (lexRadixNumber lx digit message).1.column = lx.column := by
    intro digit message
    unfold lexRadixNumber
    split <;> exact ⟨rfl, rfl⟩
  unfold lexToken
  split
  · exact ⟨rfl, rfl⟩
  · split_ifs
    · unfold lexCharLiteral
      simp only
      split
      · exact ⟨rfl, rfl⟩
      · split_ifs
        · exact ⟨rfl, rfl⟩
        · exact ⟨rfl, rfl⟩
        · exact hClose ..
      · split_ifs
        · split
          · exact ⟨rfl, rfl⟩
          · exact hClose ..
        · exact ⟨rfl, rfl⟩
        · exact hClose ..
    · unfold lexNumber
      split
      · exact hRadix ..
      · exact hRadix ..
      · exact hRadix ..
      · exact hRadix ..
      · exact ⟨rfl, rfl⟩
    · exact ⟨rfl, rfl⟩
    · unfold lexStringLiteral
      simp only
      split <;> exact ⟨rfl, rfl⟩
    · exact ⟨rfl, rfl⟩

/-- The line ends that a token of text `t` makes the lexer miss. -/
def missedIn (token : Token) (t : Text) : Nat := if token.type = .string then t.count '\n' else 0

theorem missedIn_of_ne {token : Token} (h : token.type ≠ .string) (t : Text) :
    missedIn token t = 0 := if_neg h

/-- Only a string literal makes the lexer miss line ends; one without an end
takes the rest of the text. -/
theorem lexToken_tracks (hTracks : Tracks h lx) (hRest : lx.rest = c :: after) (hLine : c ≠ '\n') :
    (lexToken c after lx).2.rest = [] ∧ (lexToken c after lx).1.type = .error ∨
    Tracks (h + missedIn (lexToken c after lx).1
        (lx.rest.take ((lexToken c after lx).2.position - lx.position)))
      (lexToken c after lx).2 := by
  have hOther : ∀ {r : Token × Lexer}, r.1.type ≠ .string → Tracks h r.2 →
      r.2.rest = [] ∧ r.1.type = .error ∨
        Tracks (h + missedIn r.1 (lx.rest.take (r.2.position - lx.position))) r.2 := by
    intro r hType hKept
    rw [missedIn_of_ne hType]
    exact .inr hKept
  unfold lexToken
  split
  · next type n hOp =>
    obtain ⟨hFits, hHeld⟩ := operatorAt_take hOp
    refine hOther (operatorAt_ne_string hOp) (Tracks.withDepth ?_ _)
    refine hTracks.skip_of_notMem (t := lx.rest.take n) (take_append_drop ..).symm ?_ ?_
    · rw [hRest]
      exact length_take_of_le hFits
    · rw [hRest]
      exact hHeld
  · split_ifs with hQuote hDigit hWord hString
    · exact hOther (lexCharLiteral_ne_string lx)
        (lexCharLiteral_tracks hTracks (by rw [hRest, hQuote]))
    · exact hOther (lexNumber_ne_string lx) (lexNumber_tracks hTracks)
    · exact hOther (wordType_ne_string _) (lexIdentifierOrKeyword_tracks hTracks)
    · rcases lexStringLiteral_tracks hTracks with hEnd | ⟨hType, hMissed⟩
      · exact .inl hEnd
      · refine .inr ?_
        rw [missedIn, if_pos hType]
        exact hMissed
    · exact hOther (fun hType => by cases hType) (hTracks.skip_one hRest hLine)

-- ---
-- The next token
-- ---

/-- What is known of a token and the lexer behind it, where the lexer at `start`
has missed `h` line ends. -/
structure ReadAt (h : Nat) (start : Lexer) (read : Token × Lexer) : Prop where
  place : read.1.type = .eof ∨ read.1.type = .newline ∨
    read.1.line = start.line ∧ read.1.column = start.column
  tracks : read.2.rest = [] ∧ read.1.type = .error ∨
    Tracks (h + missedIn read.1 (start.rest.take (read.2.position - start.position))) read.2

/-- One call of `lexer_next_token`: it is at the token, or behind a comment in front of it. -/
theorem nextTokenRound_readAt (fuel : Nat) (hTracks : Tracks h lx) : (nextTokenRound lx).elim
      (fun next => Tracks h next ∧ next.source = lx.source ∧
        skipBlank (fuel + 1) lx = skipBlank fuel next)
      fun read => Tracks h (skipBlank (fuel + 1) lx) ∧
        (skipBlank (fuel + 1) lx).source = lx.source ∧
        ReadAt h (skipBlank (fuel + 1) lx) read := by
  have hSpace : Tracks h (skipSpace lx.rest lx) := skipSpace_tracks _ hTracks rfl
  have hSource : (skipSpace lx.rest lx).source = lx.source := (skipSpace_ahead _ lx).source
  rw [nextTokenRound, skipBlank]
  cases hRest : (skipSpace lx.rest lx).rest with
  | nil => exact ⟨hSpace, hSource, .inl rfl, .inr hSpace⟩
  | cons c after =>
    have hOpen : c = '/' → ∀ {d}, after[0]? = some d → d ≠ '\n' →
        Tracks h ((skipSpace lx.rest lx).skip 2) ∧
          ((skipSpace lx.rest lx).skip 2).rest = after.drop 1 := by
      rintro rfl d hNext hOther
      cases after with
      | nil => cases hNext
      | cons e after =>
        have hEq : e = d := Option.some.inj hNext
        exact ⟨hSpace.skip_two hRest (by decide) (hEq ▸ hOther), Lexer.rest_skip_two hRest⟩
    dsimp only
    split_ifs with hLine hLineComment hBlockComment
    · subst hLine
      exact ⟨hSpace, hSource, .inr (.inl rfl), .inr (hSpace.nextLine hRest)⟩
    · obtain ⟨hKept, hAfter⟩ := hOpen hLineComment.1 hLineComment.2 (by decide)
      exact ⟨skipLineComment_tracks _ hKept hAfter,
        (skipLineComment_ahead _ _).source.trans hSource, rfl⟩
    · obtain ⟨hKept, hAfter⟩ := hOpen hBlockComment.1 hBlockComment.2 (by decide)
      have hBlock := skipBlockComment_tracks 1 _ hKept hAfter
      have hSame := (skipBlockComment_ahead 1 (after.drop 1) ((skipSpace lx.rest lx).skip 2)).source
      rcases hEnd : skipBlockComment 1 (after.drop 1) ((skipSpace lx.rest lx).skip 2) with
        ⟨depth, behind⟩
      rw [hEnd] at hBlock hSame
      cases depth with
      | zero => exact ⟨hBlock, hSame.trans hSource, rfl⟩
      | succ depth => exact ⟨hSpace, hSource, .inr (.inr ⟨rfl, rfl⟩), .inr hBlock⟩
    · exact ⟨hSpace, hSource, .inr (.inr (lexToken_place c after _)),
        lexToken_tracks hSpace hRest hLine⟩

theorem nextTokenFrom_readAt {calls : Nat} {read : Token × Lexer} (hTracks : Tracks h lx)
    (hRead : nextTokenFrom calls lx = some read) :
    Tracks h (skipBlank calls lx) ∧ (skipBlank calls lx).source = lx.source ∧
      ReadAt h (skipBlank calls lx) read := by
  induction calls generalizing lx with
  | zero => cases hRead
  | succ calls ih =>
    have hCall := nextTokenRound_readAt calls hTracks
    rw [nextTokenFrom, runLoop] at hRead
    cases hRound : nextTokenRound lx with
    | inl next =>
      rw [hRound] at hCall hRead
      obtain ⟨hKept, hSource, hBlank⟩ := hCall
      rw [hBlank, ← hSource]
      exact ih hKept hRead
    | inr last =>
      rw [hRound] at hCall hRead
      exact Option.some.inj hRead ▸ hCall

theorem nextToken_readAt (hTracks : Tracks h lx) :
    ∃ start : Lexer, Tracks h start ∧ start.source = lx.source ∧
      start.position = tokenStart lx ∧ ReadAt h start (nextToken lx) :=
  have hRead := nextTokenFrom_readAt hTracks (nextToken_eq_some lx)
  ⟨skipBlank (lx.rest.length + 1) lx, hRead.1, hRead.2.1, rfl, hRead.2.2⟩

theorem nextToken_of_rest_nil (h : lx.rest = []) : (nextToken lx).1.type = .eof := by
  have hSpace : (skipSpace lx.rest lx).rest = [] := by rw [h, skipSpace, h]
  have hRound : nextTokenRound lx =
      .inr ({ type := .eof, line := lx.line, column := lx.column }, skipSpace lx.rest lx) := by
    rw [nextTokenRound, hSpace]
  rw [nextToken_of_round hRound]

-- ---
-- Every token of a text
-- ---

/-- The line ends missed in the first `n` tokens. -/
def missed (source : Text) : Nat → Nat
  | 0 => 0
  | n + 1 =>
    missed source n + missedIn (nextToken (lexerAt source n)).1 (tokenText (lexerAt source n))

theorem missed_eq_zero_iff (source : Text) (n : Nat) :
    missed source n = 0 ↔ ∀ k < n, ¬ HoldsLineEnd (lexerAt source k) := by
  have hOne : ∀ k, missedIn (nextToken (lexerAt source k)).1 (tokenText (lexerAt source k)) = 0 ↔
      ¬ HoldsLineEnd (lexerAt source k) := by
    intro k
    unfold missedIn HoldsLineEnd
    split_ifs with hType
    · rw [count_eq_zero]
      exact ⟨fun hNone hHolds => hNone hHolds.2, fun hNot hMem => hNot ⟨hType, hMem⟩⟩
    · exact ⟨fun _ hHolds => hType hHolds.1, fun _ => rfl⟩
  induction n with
  | zero => exact ⟨fun _ k hk => absurd hk (Nat.not_lt_zero k), fun _ => rfl⟩
  | succ n ih =>
    rw [missed, Nat.add_eq_zero_iff, hOne]
    constructor
    · rintro ⟨hBefore, hLast⟩ k hk
      rcases Nat.lt_succ_iff_lt_or_eq.mp hk with hLess | rfl
      · exact ih.mp hBefore k hLess
      · exact hLast
    · exact fun hAll => ⟨ih.mpr fun k hk => hAll k (by omega), hAll n (by omega)⟩

/-- What one token keeps, over all of them: the lexer has missed the line ends
in string literals and no others, or is at the end of the text. -/
theorem lexerAt_tracks (source : Text) (n : Nat) :
    (lexerAt source n).rest = [] ∨ Tracks (missed source n) (lexerAt source n) := by
  induction n with
  | zero => exact .inr (tracks_create source)
  | succ n ih =>
    rcases ih with hEnd | hTracks
    · have hLess := (nextToken_ahead (lexerAt source n)).rest_length_le
      rw [hEnd] at hLess
      exact .inl (eq_nil_of_length_eq_zero (Nat.le_zero.mp hLess))
    · obtain ⟨start, -, hSource, hPosition, hRead⟩ := nextToken_readAt hTracks
      refine hRead.tracks.imp And.left fun hNext => ?_
      have hText : tokenText (lexerAt source n) = start.rest.take
          ((nextToken (lexerAt source n)).2.position - start.position) := by
        rw [tokenText, Lexer.rest, hSource, hPosition]
      rw [missed, hText]
      exact hNext

/-- **Token positions.** Line and column of a token, read or peeked at any place
a parser comes to, are those of its first character if and only if no string
literal before it goes over a line end. -/
theorem position_exact_iff {source : Text} {n : Nat} {lx : Lexer} {token : Token}
    (hReached : Reached source n lx)
    (hToken : token = (nextToken lx).1 ∨ token = (peekToken lx).1)
    (hEof : token.type ≠ .eof) (hNewline : token.type ≠ .newline) :
    (token.line = lineAt (source.take (tokenStart lx)) ∧
      token.column = columnAt (source.take (tokenStart lx))) ↔
    ∀ k < n, ¬ HoldsLineEnd (lexerAt source k) := by
  have hNext : token = (nextToken lx).1 := hToken.elim id id
  have hAt := hReached.eq_lexerAt
  subst hNext
  rcases lexerAt_tracks source n with hEnd | hTracks
  · rw [← hAt] at hEnd
    exact absurd (nextToken_of_rest_nil hEnd) hEof
  · rw [← hAt] at hTracks
    obtain ⟨start, hStart, hSource, hPosition, hRead⟩ := nextToken_readAt hTracks
    have hPlace := (hRead.place.resolve_left hEof).resolve_left hNewline
    have hBehind : source.take (tokenStart lx) = start.behind := by
      rw [Lexer.behind, hSource, hPosition, hAt, lexerAt_source]
    rw [hPlace.1, hPlace.2, hBehind, ← missed_eq_zero_iff]
    constructor
    · rintro ⟨hLine, -⟩
      have := hStart.line
      omega
    · intro hNone
      refine ⟨?_, hStart.column hNone⟩
      have := hStart.line
      omega

theorem position_exact_name : (nextToken (lexerAt "(/* \n */ \"a\"\n x".toList 2)).1.line = 3 ∧
      (nextToken (lexerAt "(/* \n */ \"a\"\n x".toList 2)).1.column = 2 := by
  have hReached : ∀ n, Reached "(/* \n */ \"a\"\n x".toList n
      (lexerAt "(/* \n */ \"a\"\n x".toList n) := by
    intro n
    induction n with
    | zero => exact .create
    | succ n ih => exact ih.next
  have hExact := (position_exact_iff (hReached 2) (.inl rfl) (by decide)
    (by decide)).mpr (by decide)
  have hLine : lineAt ("(/* \n */ \"a\"\n x".toList.take
      (tokenStart (lexerAt "(/* \n */ \"a\"\n x".toList 2))) = 3 := by decide
  have hColumn : columnAt ("(/* \n */ \"a\"\n x".toList.take
      (tokenStart (lexerAt "(/* \n */ \"a\"\n x".toList 2))) = 2 := by decide
  exact ⟨hExact.1.trans hLine, hExact.2.trans hColumn⟩

theorem literal_over_line_end : ¬ ∀ (source : Text) (n : Nat) (lx : Lexer), Reached source n lx →
      (nextToken lx).1.type ≠ .eof → (nextToken lx).1.type ≠ .newline →
      (nextToken lx).1.line = lineAt (source.take (tokenStart lx)) ∧
        (nextToken lx).1.column = columnAt (source.take (tokenStart lx)) := by
  intro hAll
  have hWrong := (hAll "\"a\nb\" x".toList 1 _ (.next .create) (by decide) (by decide)).1
  revert hWrong
  decide

end Mettle.Lexing
