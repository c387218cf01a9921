import Mettle.Parser.TypeSpelling

/-!
# Mettle — what the text of a type says

The text of a type is its tokens without white space. It says which tokens they
are, but not which type a suffix behind a return type belongs to:
`fn()->int32*` is the text of a function pointer that returns a pointer, and of a
pointer to a function-pointer type. `spread` gives all such suffixes to the
function-pointer type.
-/

namespace Mettle.Parser

open Lexing Lib List

attribute [local simp] TypeExpr.lexemes

-- ---
-- A text determines its tokens
-- ---

variable {l l' : Lexeme}

theorem lexeme_ext (hType : l.type = l'.type) (hText : l.text = l'.text) : l = l' := by
  have hMark : ∀ (n : TypeName) (m : Mark), wordType n.1 ≠ m.type := by
    intro n m
    cases m <;> exact n.type_ne rfl rfl
  cases l with
  | fn =>
    cases l' with
    | fn => rfl
    | name n => exact absurd hType.symm (n.type_ne rfl rfl)
    | size s => cases hType
    | mark m => cases m <;> cases hType
  | name n =>
    cases l' with
    | fn => exact absurd hType (n.type_ne rfl rfl)
    | name n' => exact congrArg Lexeme.name (Subtype.ext hText)
    | size s => exact absurd hType (n.type_ne rfl rfl)
    | mark m => exact absurd hType (hMark n m)
  | size s =>
    cases l' with
    | fn => cases hType
    | name n' => exact absurd hType.symm (n'.type_ne rfl rfl)
    | size s' => exact congrArg Lexeme.size (Subtype.ext hText)
    | mark m => cases m <;> cases hType
  | mark m =>
    cases l' with
    | fn => cases m <;> cases hType
    | name n' => exact absurd hType.symm (hMark n' m)
    | size s' => cases m <;> cases hType
    | mark m' => cases m <;> cases m' <;> first | rfl | cases hType

theorem cutOff_unique {after after' : Text} (hText : l.text ++ after = l'.text ++ after')
    (hApart : Apart l after) (hApart' : Apart l' after') : l = l' ∧ after = after' := by
  have hLexer : ∀ {m : Lexeme} {behind : Text}, l.text ++ after = m.text ++ behind →
      Lexer.rest (.create (l.text ++ after)) = m.text ++ behind := fun h => h
  obtain ⟨c, w, hc, -, -, -, hCut⟩ := lexToken_lexeme l (hLexer rfl) hApart
  obtain ⟨c', w', hc', -, -, -, hCut'⟩ := lexToken_lexeme l' (hLexer hText) hApart'
  rw [hc, hc'] at hText
  obtain ⟨rfl, hRest⟩ := cons.inj hText
  have hRest : w ++ after = w' ++ after' := hRest
  rw [hRest] at hCut
  exact ⟨lexeme_ext (hCut.type.symm.trans hCut'.type) (hCut.value.symm.trans hCut'.value),
    hCut.rest.symm.trans hCut'.rest⟩

theorem greater_of_text {w : Text} (h : l.text = '>' :: w) : l = .mark .greater := by
  obtain ⟨c, w', hText, hWord⟩ := l.text_cons
  cases h.symm.trans hText
  cases l with
  | mark m => cases m <;> first | rfl | cases h
  | fn => cases h
  | name n => exact absurd (hWord.mpr fun m => nofun) (by decide)
  | size s => exact absurd (hWord.mpr fun m => nofun) (by decide)

variable {ls : List Lexeme}

theorem Path.apart {m : Lexeme} (h : Path l (l' :: ls) m) (hNot : l' ≠ .mark .greater) :
    Apart l' (flatText ls) := by
  cases h with
  | cons _ hRest =>
    cases hRest with
    | nil => exact nofun
    | @cons _ l'' _ ls hTouches => exact hTouches.apart (fun h => hNot h.1) (flatText ls)

/-- **The text of tokens that stand side by side determines them.** -/
theorem flatText_inj {m m' : Lexeme} {ls' : List Lexeme} (h : Path l ls m) (h' : Path l' ls' m')
    (hText : flatText ls = flatText ls') : ls = ls' := by
  induction ls generalizing l l' ls' with
  | nil =>
    cases ls' with
    | nil => rfl
    | cons first rest =>
      obtain ⟨c, w, hFirst, -⟩ := first.text_cons
      rw [flatText_cons, hFirst] at hText
      cases hText
  | cons first rest ih =>
    cases ls' with
    | nil =>
      obtain ⟨c, w, hFirst, -⟩ := first.text_cons
      rw [flatText_cons, hFirst] at hText
      cases hText
    | cons first' rest' =>
      have hBoth : first = first' ∧ flatText rest = flatText rest' := by
        rw [flatText_cons, flatText_cons] at hText
        have hStart : first = .mark .greater ↔ first' = .mark .greater := by
          obtain ⟨c, w, hFirst, -⟩ := first.text_cons
          obtain ⟨c', w', hFirst', -⟩ := first'.text_cons
          rw [hFirst, hFirst'] at hText
          obtain ⟨rfl, -⟩ := cons.inj hText
          constructor
          · rintro rfl
            cases hFirst
            exact greater_of_text hFirst'
          · rintro rfl
            cases hFirst'
            exact greater_of_text hFirst
        by_cases hGreater : first = .mark .greater
        · obtain rfl := hStart.mp hGreater
          rw [hGreater] at hText ⊢
          exact ⟨rfl, append_cancel_left hText⟩
        · exact cutOff_unique hText (h.apart hGreater)
            (h'.apart fun hGreater' => hGreater (hStart.mpr hGreater'))
      obtain ⟨rfl, hRest⟩ := hBoth
      cases h with
      | cons _ h =>
        cases h' with
        | cons _ h' => rw [ih h h' hRest]

variable {type : TypeExpr}

theorem text_inj {type' : TypeExpr} : type.text = type'.text ↔ type.lexemes = type'.lexemes := by
  obtain ⟨m, hPath, -⟩ := @path_type type (.mark .comma) rfl
  obtain ⟨m', hPath', -⟩ := @path_type type' (.mark .comma) rfl
  exact ⟨flatText_inj hPath hPath', congrArg flatText⟩

-- ---
-- Suffixes behind function-pointer types
-- ---

def TypeExpr.items : TypeExpr → List Item
  | .named _ _ _ items => items
  | .function _ _ items => items

def TypeExpr.bare : TypeExpr → TypeExpr
  | .named head qualifiers args _ => .named head qualifiers args []
  | .function params ret _ => .function params ret []

mutual

def TypeExpr.spread : TypeExpr → TypeExpr
  | .named head qualifiers args items => .named head qualifiers (spreadAll args) items
  | .function params ret items =>
    .function (spreadAll params) ret.spread.bare (ret.spread.items ++ items)

def spreadAll : List TypeExpr → List TypeExpr
  | [] => []
  | type :: types => type.spread :: spreadAll types

end

mutual

/-- No return type has suffixes of its own. -/
def TypeExpr.Spread : TypeExpr → Prop
  | .named _ _ args _ => AllSpread args
  | .function params ret _ => AllSpread params ∧ ret.Spread ∧ ret.items = []

def AllSpread : List TypeExpr → Prop
  | [] => True
  | type :: types => type.Spread ∧ AllSpread types

end

theorem bare_lexemes (type : TypeExpr) :
    type.bare.lexemes ++ itemLexemes type.items = type.lexemes := by
  cases type with
  | named head qualifiers args items =>
    cases args <;> simp [TypeExpr.bare, TypeExpr.items, itemLexemes]
  | function params ret items =>
    simp [TypeExpr.bare, TypeExpr.items, itemLexemes]

theorem bare_spread (h : type.Spread) : type.bare.Spread ∧ type.bare.items = [] := by
  cases type with
  | named => exact ⟨h, rfl⟩
  | function => exact ⟨h, rfl⟩

mutual

theorem spread_lexemes (type : TypeExpr) :
    type.spread.lexemes = type.lexemes ∧ type.spread.Spread := by
  match type with
  | .named head qualifiers [] items => exact ⟨rfl, trivial⟩
  | .named head qualifiers (arg :: args) items =>
    obtain ⟨hArg, hArgSpread⟩ := spread_lexemes arg
    obtain ⟨-, hMore, hSpread⟩ := spread_all args
    refine ⟨?_, hArgSpread, hSpread⟩
    rw [TypeExpr.spread, spreadAll, TypeExpr.lexemes, TypeExpr.lexemes, hArg, hMore]
  | .function params ret items =>
    obtain ⟨hRet, hRetSpread⟩ := spread_lexemes ret
    obtain ⟨hList, -, hSpread⟩ := spread_all params
    refine ⟨?_, hSpread, bare_spread hRetSpread⟩
    rw [TypeExpr.spread, TypeExpr.lexemes, TypeExpr.lexemes, hList, itemLexemes_append, ← hRet,
      ← bare_lexemes ret.spread, append_assoc]

theorem spread_all (types : List TypeExpr) : listLexemes (spreadAll types) = listLexemes types ∧
      moreLexemes (spreadAll types) = moreLexemes types ∧ AllSpread (spreadAll types) := by
  match types with
  | [] => exact ⟨rfl, rfl, trivial⟩
  | type :: types =>
    obtain ⟨hType, hTypeSpread⟩ := spread_lexemes type
    obtain ⟨-, hMore, hSpread⟩ := spread_all types
    refine ⟨?_, ?_, hTypeSpread, hSpread⟩
    · rw [spreadAll, listLexemes, listLexemes, hType, hMore]
    · rw [spreadAll, moreLexemes, moreLexemes, hType, hMore]

end

-- ---
-- The tokens determine a spread type
-- ---

def NameEnds (x : List Lexeme) : Prop := ∀ l ∈ x.head?, l ≠ .mark .dot ∧ l ≠ .mark .less

/-- A suffix does not go on here. -/
def ItemsEnd (x : List Lexeme) : Prop := ∀ l ∈ x.head?, l ≠ .mark .star ∧ l ≠ .mark .lbracket

variable {x : List Lexeme}

theorem nameEnds_items (items : List Item) (h : NameEnds x) : NameEnds (itemLexemes items ++ x)
    := by
  cases items with
  | nil => exact h
  | cons item items =>
    cases item <;>
    · intro l hl
      cases hl
      exact ⟨nofun, nofun⟩

theorem ends_more (types : List TypeExpr) {m : Mark} (hClose : m = .rparen ∨ m = .greater)
    (x : List Lexeme) :
    NameEnds (moreLexemes types ++ .mark m :: x) ∧ ItemsEnd (moreLexemes types ++ .mark m :: x) := by
  cases types with
  | nil =>
    constructor <;> intro l hl <;> cases hl <;> rcases hClose with rfl | rfl <;> exact ⟨nofun, nofun⟩
  | cons type types =>
    constructor <;> intro l hl <;> cases hl <;> exact ⟨nofun, nofun⟩

variable {x' : List Lexeme}

theorem items_inj {items items' : List Item} (h : itemLexemes items ++ x = itemLexemes items' ++ x')
    (hEnd : items = [] ∧ items' = [] ∨ ItemsEnd x ∧ ItemsEnd x') : items = items' ∧ x = x' := by
  rcases hEnd with ⟨rfl, rfl⟩ | ⟨hx, hx'⟩
  · exact ⟨rfl, h⟩
  induction items generalizing items' with
  | nil =>
    cases items' with
    | nil => exact ⟨rfl, h⟩
    | cons item' items' =>
      cases item' with
      | star => exact absurd rfl (hx (.mark .star) (by rw [show x = _ from h]; rfl)).1
      | size s => exact absurd rfl (hx (.mark .lbracket) (by rw [show x = _ from h]; rfl)).2
  | cons item items ih =>
    cases items' with
    | nil =>
      cases item with
      | star => exact absurd rfl (hx' (.mark .star) (by rw [show x' = _ from h.symm]; rfl)).1
      | size s => exact absurd rfl (hx' (.mark .lbracket) (by rw [show x' = _ from h.symm]; rfl)).2
    | cons item' items' =>
      cases item with
      | star =>
        cases item' with
        | star =>
          obtain ⟨rfl, rfl⟩ := ih (cons.inj h).2
          exact ⟨rfl, rfl⟩
        | size s' => cases (cons.inj h).1
      | size s =>
        cases item' with
        | star => cases (cons.inj h).1
        | size s' =>
          have hSize := (cons.inj (cons.inj h).2)
          obtain ⟨rfl, rfl⟩ := ih (cons.inj hSize.2).2
          cases hSize.1
          exact ⟨rfl, rfl⟩

theorem names_inj {qualifiers qualifiers' : List TypeName}
    (h : qualifierLexemes qualifiers ++ x = qualifierLexemes qualifiers' ++ x')
    (hx : ∀ l ∈ x.head?, l ≠ .mark .dot) (hx' : ∀ l ∈ x'.head?, l ≠ .mark .dot) :
    qualifiers = qualifiers' ∧ x = x' := by
  induction qualifiers generalizing qualifiers' with
  | nil =>
    cases qualifiers' with
    | nil => exact ⟨rfl, h⟩
    | cons part' _ => exact absurd rfl (hx (.mark .dot) (by rw [show x = _ from h]; rfl))
  | cons part qualifiers ih =>
    cases qualifiers' with
    | nil => exact absurd rfl (hx' (.mark .dot) (by rw [show x' = _ from h.symm]; rfl))
    | cons part' qualifiers' =>
      have hPart := cons.inj (cons.inj h).2
      obtain ⟨rfl, rfl⟩ := ih hPart.2
      cases hPart.1
      exact ⟨rfl, rfl⟩

mutual

theorem type_inj {type type' : TypeExpr} (hSpread : type.Spread) (hSpread' : type'.Spread)
    {x x' : List Lexeme} (h : type.lexemes ++ x = type'.lexemes ++ x') (hx : NameEnds x)
    (hx' : NameEnds x')
    (hEnd : type.items = [] ∧ type'.items = [] ∨ ItemsEnd x ∧ ItemsEnd x') :
    type = type' ∧ x = x' := by
  match type, type' with
  | .named head qualifiers [] items, .named head' qualifiers' [] items' =>
    simp only [TypeExpr.lexemes, cons_append, append_assoc, cons.injEq, Lexeme.name.injEq] at h
    obtain ⟨rfl, hNames⟩ := h
    obtain ⟨rfl, hItems⟩ := names_inj hNames (fun l hl => (nameEnds_items items hx l hl).1)
      fun l hl => (nameEnds_items items' hx' l hl).1
    obtain ⟨rfl, rfl⟩ := items_inj hItems hEnd
    exact ⟨rfl, rfl⟩
  | .named head qualifiers [] items, .named head' qualifiers' (arg' :: args') items' =>
    simp only [TypeExpr.lexemes, cons_append, append_assoc, cons.injEq] at h
    obtain ⟨-, h⟩ := names_inj h.2 (fun l hl => (nameEnds_items items hx l hl).1) nofun
    exact absurd rfl (nameEnds_items items hx (.mark .less) (by rw [h]; rfl)).2
  | .named head qualifiers (arg :: args) items, .named head' qualifiers' [] items' =>
    simp only [TypeExpr.lexemes, cons_append, append_assoc, cons.injEq] at h
    obtain ⟨-, h⟩ := names_inj h.2 nofun (fun l hl => (nameEnds_items items' hx' l hl).1)
    exact absurd rfl (nameEnds_items items' hx' (.mark .less) (by rw [← h]; rfl)).2
  | .named head qualifiers (arg :: args) items, .named head' qualifiers' (arg' :: args') items' =>
    simp only [TypeExpr.lexemes, cons_append, append_assoc, cons.injEq, Lexeme.name.injEq] at h
    obtain ⟨rfl, hNames⟩ := h
    obtain ⟨rfl, hOpen⟩ := names_inj hNames (fun l hl => by cases hl; nofun)
      fun l hl => by cases hl; nofun
    have hMore := ends_more args (.inr rfl) (itemLexemes items ++ x)
    have hMore' := ends_more args' (.inr rfl) (itemLexemes items' ++ x')
    obtain ⟨rfl, hArgs⟩ := type_inj hSpread.1 hSpread'.1 (cons.inj hOpen).2 hMore.1 hMore'.1
      (.inr ⟨hMore.2, hMore'.2⟩)
    obtain ⟨rfl, hItems⟩ := more_inj hSpread.2 hSpread'.2 (.inr rfl) hArgs
    obtain ⟨rfl, rfl⟩ := items_inj hItems hEnd
    exact ⟨rfl, rfl⟩
  | .named _ _ [] _, .function _ _ _ => simp at h
  | .named _ _ (_ :: _) _, .function _ _ _ => simp at h
  | .function _ _ _, .named _ _ [] _ => simp at h
  | .function _ _ _, .named _ _ (_ :: _) _ => simp at h
  | .function params ret items, .function params' ret' items' =>
    simp only [TypeExpr.lexemes, cons_append, append_assoc, cons.injEq, true_and] at h
    obtain ⟨rfl, hArrow⟩ := list_inj hSpread.1 hSpread'.1 h
    obtain ⟨rfl, hItems⟩ := type_inj hSpread.2.1 hSpread'.2.1 (cons.inj hArrow).2
      (nameEnds_items items hx) (nameEnds_items items' hx') (.inl ⟨hSpread.2.2, hSpread'.2.2⟩)
    obtain ⟨rfl, rfl⟩ := items_inj hItems hEnd
    exact ⟨rfl, rfl⟩

theorem list_inj {types types' : List TypeExpr} (hSpread : AllSpread types)
    (hSpread' : AllSpread types') {x x' : List Lexeme}
    (h : listLexemes types ++ .mark .rparen :: x = listLexemes types' ++ .mark .rparen :: x') :
    types = types' ∧ x = x' := by
  match types, types' with
  | [], [] => exact ⟨rfl, (cons.inj h).2⟩
  | [], type' :: types' =>
    obtain ⟨l, ls, hStart, hl⟩ := lexemes_start type'
    rw [listLexemes, listLexemes, hStart] at h
    rcases hl with rfl | ⟨n, rfl⟩ <;> simp at h
  | type :: types, [] =>
    obtain ⟨l, ls, hStart, hl⟩ := lexemes_start type
    rw [listLexemes, listLexemes, hStart] at h
    rcases hl with rfl | ⟨n, rfl⟩ <;> simp at h
  | type :: types, type' :: types' =>
    simp only [listLexemes, append_assoc] at h
    have hMore := ends_more types (.inl rfl) x
    have hMore' := ends_more types' (.inl rfl) x'
    obtain ⟨rfl, hRest⟩ := type_inj hSpread.1 hSpread'.1 h hMore.1 hMore'.1
      (.inr ⟨hMore.2, hMore'.2⟩)
    obtain ⟨rfl, rfl⟩ := more_inj hSpread.2 hSpread'.2 (.inl rfl) hRest
    exact ⟨rfl, rfl⟩

theorem more_inj {types types' : List TypeExpr} (hSpread : AllSpread types)
    (hSpread' : AllSpread types') {m : Mark} (hClose : m = .rparen ∨ m = .greater)
    {x x' : List Lexeme}
    (h : moreLexemes types ++ .mark m :: x = moreLexemes types' ++ .mark m :: x') :
    types = types' ∧ x = x' := by
  match types, types' with
  | [], [] => exact ⟨rfl, (cons.inj h).2⟩
  | [], type' :: types' =>
    rcases hClose with rfl | rfl <;> simp [moreLexemes] at h
  | type :: types, [] =>
    rcases hClose with rfl | rfl <;> simp [moreLexemes] at h
  | type :: types, type' :: types' =>
    simp only [moreLexemes, cons_append, append_assoc, cons.injEq, true_and] at h
    have hMore := ends_more types hClose x
    have hMore' := ends_more types' hClose x'
    obtain ⟨rfl, hRest⟩ := type_inj hSpread.1 hSpread'.1 h hMore.1 hMore'.1
      (.inr ⟨hMore.2, hMore'.2⟩)
    obtain ⟨rfl, rfl⟩ := more_inj hSpread.2 hSpread'.2 hClose hRest
    exact ⟨rfl, rfl⟩

end

/-- **Two types have one text exactly if they are the same when spread.** -/
theorem text_eq_iff (type type' : TypeExpr) :
    type.text = type'.text ↔ type.spread = type'.spread := by
  obtain ⟨hLexemes, hSpread⟩ := spread_lexemes type
  obtain ⟨hLexemes', hSpread'⟩ := spread_lexemes type'
  rw [text_inj, ← hLexemes, ← hLexemes']
  constructor
  · intro h
    have hEnd : NameEnds [] := nofun
    have hItems : ItemsEnd [] := nofun
    exact (type_inj hSpread hSpread' (congrArg (· ++ []) h) hEnd hEnd (.inr ⟨hItems, hItems⟩)).1
  · exact congrArg TypeExpr.lexemes

-- ---
-- Annotations keep their types
-- ---

/-- **When annotations keep their types.** An annotation is read, and its text
returned, exactly if no two closing marks are glued; and its text is that of another
type exactly if the two are the same when the suffixes behind return types are
given to the function-pointer types. -/
theorem annotation_kept_iff (type type' : TypeExpr) (hWritten : type.Written) (ps : Writing)
    (tail : Text) (p : State) (hOccurs : Occurs type ps tail p) :
    ((∃ fuel q, typeAnnotationText fuel p = some (some type.text, q) ∧ Calm p q) ↔ ¬ ps.Glued) ∧
      (type.text = type'.text ↔ type.spread = type'.spread) :=
  ⟨annotation_read_iff hWritten hOccurs, text_eq_iff type type'⟩

theorem closes_semicolon (depth : Nat) : Closes depth [';'] := by
  intro lx hRest _
  obtain ⟨lx', -, -, hNext⟩ := @nextToken_gap lx [] [] ';' nofun hRest (by decide) (by decide)
    (by decide)
  have hType : (nextToken lx).1.type = .semicolon := by
    rw [hNext]
    rfl
  rw [hType]
  decide

def nameT : TypeName :=
  ⟨['T'], ⟨⟨'T', [], rfl, rfl⟩, List.forall_mem_singleton.mpr rfl⟩, .inr (by decide)⟩

theorem occurs_semicolon {source : String} {ps : Writing} (hTokens : ps.map Prod.snd = type.lexemes)
    (hSpaced : ps.Spaced 0) (hText : source.toList = ps.text ++ [';'])
    (hLast : ∀ l ∈ type.lexemes.getLast?, joinsChar l ';' = false)
    (hCalm : (stateOf source).hasError = false) : Occurs type ps [';'] (stateOf source) where
  calm := hCalm
  written := ⟨.create source.toList, starts_create _ _, hText, ⟨hTokens, hSpaced⟩,
    closes_semicolon _⟩
  apart := by
    intro l hl c hc
    cases hc
    exact hLast l hl

/-- `T<T >`, with a blank before the closing mark. -/
theorem annotation_kept_single :
    (∃ fuel q, typeAnnotationText fuel (stateOf "T<T >;") = some (some "T<T>".toList, q) ∧
      Calm (stateOf "T<T >;") q) ∧
      (TypeExpr.named nameT [] [.named nameT [] [] []] []).text ≠
        (TypeExpr.named nameT [] [] []).text := by
  have hOccurs : Occurs (.named nameT [] [.named nameT [] [] []] [])
      [([], .name nameT), ([], .mark .less), ([], .name nameT), ([' '], .mark .greater)] [';']
      (stateOf "T<T >;") :=
    occurs_semicolon rfl (by decide) rfl (by intro l hl; cases hl; rfl) (by decide)
  have hBoth := annotation_kept_iff (.named nameT [] [.named nameT [] [] []] [])
    (.named nameT [] [] []) ⟨⟨⟨trivial, Nat.zero_le 1⟩, trivial⟩, Nat.zero_le 1⟩ _ _ _ hOccurs
  exact ⟨hBoth.1.mpr (by decide), fun h => absurd (hBoth.2.mp h) nofun⟩

/-- `T<T<T>>` is not read, and a pointer to a function-pointer type has the text of a
function pointer that returns a pointer. -/
theorem nested_arguments_refused :
    (¬ ∀ (type : TypeExpr), type.Written → ∀ ps tail p, Occurs type ps tail p →
        ∃ fuel q, typeAnnotationText fuel p = some (some type.text, q) ∧ Calm p q) ∧
      ¬ ∀ (type type' : TypeExpr), type.Written → type'.Written → type ≠ type' →
        type.text ≠ type'.text := by
  constructor
  · intro hRead
    have hWritten : (TypeExpr.named nameT [] [.named nameT [] [.named nameT [] [] []] []] []).Written :=
      ⟨⟨⟨⟨⟨trivial, Nat.zero_le 1⟩, trivial⟩, Nat.zero_le 1⟩, trivial⟩, Nat.zero_le 1⟩
    have hOccurs : Occurs (.named nameT [] [.named nameT [] [.named nameT [] [] []] []] [])
        [([], .name nameT), ([], .mark .less), ([], .name nameT), ([], .mark .less),
          ([], .name nameT), ([], .mark .greater), ([], .mark .greater)] [';']
        (stateOf "T<T<T>>;") :=
      occurs_semicolon rfl (by decide) rfl (by intro l hl; cases hl; rfl) (by decide)
    exact (annotation_read_iff hWritten hOccurs).mp (hRead _ hWritten _ _ _ hOccurs) (by decide)
  · intro hTell
    exact hTell (.function [] (.named nameT [] [] []) [.star])
      (.function [] (.named nameT [] [] [.star]) [])
      ⟨trivial, ⟨trivial, Nat.zero_le 1⟩, Nat.le_refl 1⟩
      ⟨trivial, ⟨trivial, Nat.le_refl 1⟩, Nat.zero_le 1⟩ nofun rfl

end Mettle.Parser
