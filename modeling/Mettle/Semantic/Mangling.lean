import Mathlib.Data.List.Infix
import Mathlib.Data.List.TakeWhile

/-!
# Mettle — generated names

Instances of generic functions and structs, methods of impls, declarations that are imported
under an alias and instances of generic enums get names of their own, built from the names
and type texts they come from. A method call `s.m()` gets the name of the function it stands for.
All of these are plain texts in the one namespace of the program.

The generators join their parts with underscores, which names may contain as well. So the
names are apart only if the names of the program are: no name may continue another one in
the way a generator would. The type texts of an instance are read back from left to right,
name by name, which is where that is used.
-/

namespace Mettle.Semantic

open List

-- ---
-- The generators
-- ---

abbrev Text := List Char

def mangleChar (c : Char) : Text :=
  if c = '*' then ['_', 'p', 't', 'r']
  else if c = '<' ∨ c = '>' ∨ c = ',' then ['_']
  else [c]

def mangleArg (typeArg : Text) : Text :=
  typeArg.flatMap mangleChar

/-- The name of an instance. -/
def mangleName (base : Text) (typeArgs : List Text) : Text :=
  base ++ typeArgs.flatMap fun typeArg => '_' :: '_' :: mangleArg typeArg

def isNameChar (c : Char) : Bool :=
  c.isAlphanum || c = '_'

/-- Other characters become `_`. -/
def sanitizeComponent (value : Text) : Text :=
  value.map fun c => if isNameChar c then c else '_'

def traitMark : Text :=
  ['_', '_', 't', 'r', 'a', 'i', 't']

/-- The name of a method of an impl. -/
def mangleImplMethodName (traitName forTypeName methodName : Text) : Text :=
  traitMark ++ '_' :: (sanitizeComponent traitName ++ '_' :: '_' ::
    (sanitizeComponent forTypeName ++ '_' :: '_' :: sanitizeComponent methodName))

/-- A name of a module. -/
def buildQualifiedName (moduleAlias name : Text) : Text :=
  moduleAlias ++ '_' :: '_' :: name

/-- What the checker takes for the type argument of a generic enum: the text behind the
`<` up to the first comma, or up to the closing `>`. -/
def enumTypeArg (typeArgs : List Text) : Text :=
  ([','].intercalate typeArgs).takeWhile (· ≠ ',')

def instantiateGenericEnumName (genericName : Text) (typeArgs : List Text) : Text :=
  genericName ++ '_' :: '_' :: enumTypeArg typeArgs

def methodCallName (structName functionName : Text) : Text :=
  structName ++ '_' :: functionName

/-- The function that a method call means. -/
def desugarStructMethodCall (lookup : Text → Bool) (structName functionName : Text) :
    Except String Text :=
  let mangled := methodCallName structName functionName
  if lookup mangled then .ok mangled
  else .error ("Undefined method '" ++ String.ofList structName ++ "." ++
    String.ofList functionName ++ "' (expected function '" ++ String.ofList mangled ++ "')")

inductive GeneratedName where
  | instantiation (base : Text) (typeArgs : List Text)
  | implMethod (traitName forTypeName methodName : Text)
  | qualified (moduleAlias name : Text)
  | enumInstance (genericName : Text) (typeArgs : List Text)
  | methodCall (structName functionName : Text)
  deriving DecidableEq

def GeneratedName.text : GeneratedName → Text
  | .instantiation base typeArgs => mangleName base typeArgs
  | .implMethod traitName forTypeName methodName =>
    mangleImplMethodName traitName forTypeName methodName
  | .qualified moduleAlias name => buildQualifiedName moduleAlias name
  | .enumInstance genericName typeArgs => instantiateGenericEnumName genericName typeArgs
  | .methodCall structName functionName => methodCallName structName functionName

def GeneratedName.Defines : GeneratedName → Prop
  | .methodCall _ _ => False
  | _ => True

-- ---
-- Type texts
-- ---

inductive TypeSuffix where
  | pointer
  | array (size : Text)

def TypeSuffix.text : TypeSuffix → Text
  | .pointer => ['*']
  | .array size => '[' :: size ++ [']']

/-- A type as the parser reads it. -/
inductive TypeTree where
  | named (name : Text) (typeArgs : List TypeTree) (suffixes : List TypeSuffix)
  | function (params : List TypeTree) (returnType : TypeTree)

mutual

def TypeTree.text : TypeTree → Text
  | .named name [] suffixes => name ++ suffixes.flatMap TypeSuffix.text
  | .named name (t :: ts) suffixes =>
    name ++ '<' :: (t.text ++ TypeTree.restText ts ++ '>' :: suffixes.flatMap TypeSuffix.text)
  | .function [] returnType => ['f', 'n', '(', ')', '-', '>'] ++ returnType.text
  | .function (t :: ts) returnType =>
    ['f', 'n', '('] ++ (t.text ++ TypeTree.restText ts ++ ([')', '-', '>'] ++ returnType.text))

def TypeTree.restText : List TypeTree → Text
  | [] => []
  | t :: ts => ',' :: (t.text ++ TypeTree.restText ts)

end

def IsIdentifier (name : Text) : Prop :=
  name ≠ [] ∧ ∀ c ∈ name, isNameChar c = true

instance (name : Text) : Decidable (IsIdentifier name) :=
  decidable_of_iff (name ≠ [] ∧ name.all isNameChar = true) (by rw [List.all_eq_true]; rfl)

def TypeSuffix.WellFormed : TypeSuffix → Prop
  | .pointer => True
  | .array size => ∀ c ∈ size, isNameChar c = true ∨ c = '.'

mutual

/-- Every name is one of `types` and has as many arguments as it has parameters. -/
def TypeTree.WellFormed (types : List Text) (arity : Text → Nat) : TypeTree → Prop
  | .named name typeArgs suffixes =>
    name ∈ types ∧ typeArgs.length = arity name ∧ TypeTree.AllWellFormed types arity typeArgs ∧
      ∀ s ∈ suffixes, s.WellFormed
  | .function params returnType =>
    TypeTree.AllWellFormed types arity params ∧ returnType.WellFormed types arity

def TypeTree.AllWellFormed (types : List Text) (arity : Text → Nat) : List TypeTree → Prop
  | [] => True
  | t :: ts => t.WellFormed types arity ∧ TypeTree.AllWellFormed types arity ts

end

def IsTypeText (types : List Text) (arity : Text → Nat) (text : Text) : Prop :=
  ∃ t : TypeTree, t.WellFormed types arity ∧ t.text = text

-- ---
-- Reading type texts back
-- ---

theorem mangleChar_of_isNameChar {c : Char} (h : isNameChar c = true ∨ c = '.') :
    mangleChar c = [c] := by
  have hStar : c ≠ '*' := by rintro rfl; revert h; decide
  have hLess : c ≠ '<' := by rintro rfl; revert h; decide
  have hGreater : c ≠ '>' := by rintro rfl; revert h; decide
  have hComma : c ≠ ',' := by rintro rfl; revert h; decide
  simp [mangleChar, hStar, hLess, hGreater, hComma]

theorem mangleArg_eq_self {text : Text} (h : ∀ c ∈ text, isNameChar c = true ∨ c = '.') :
    mangleArg text = text := by
  induction text with
  | nil => rfl
  | cons c cs ih =>
    rw [mangleArg, flatMap_cons, mangleChar_of_isNameChar (h c mem_cons_self)]
    exact congrArg (c :: ·) (ih fun d hd => h d (mem_cons_of_mem c hd))

variable {name : Text}

theorem IsIdentifier.mangleArg (h : IsIdentifier name) : mangleArg name = name :=
  mangleArg_eq_self fun c hc => .inl (h.2 c hc)

@[simp] theorem mangleArg_append (a b : Text) : mangleArg (a ++ b) = mangleArg a ++ mangleArg b :=
  flatMap_append

@[simp] theorem mangleArg_cons (c : Char) (cs : Text) :
    mangleArg (c :: cs) = mangleChar c ++ mangleArg cs :=
  flatMap_cons

@[simp] theorem mangleArg_nil : mangleArg [] = [] := rfl

/-- What stands behind a name in a mangled type text. -/
def Stops (rest : Text) : Prop :=
  ∀ c ∈ rest.head?, c = '_' ∨ c = '[' ∨ c = ')'

def ptrText : Text :=
  ['p', 't', 'r']

/-- What stands behind a whole type, which is no further pointer suffix. -/
def Follows (rest : Text) : Prop :=
  Stops rest ∧ (∀ c ∈ rest.head?, c ≠ '[') ∧ ∀ u, Stops u → rest ≠ '_' :: (ptrText ++ u)

/-- A name with `name_` before it is no name of the program. -/
def Continues (name other : Text) : Prop :=
  (name ++ ['_']) <+: other

instance (name other : Text) : Decidable (Continues name other) :=
  inferInstanceAs (Decidable (_ <+: _))

variable {n : Text}

theorem name_read {n' u u' : Text} (hn : IsIdentifier n) (hn' : IsIdentifier n')
    (hApart : ¬ Continues n n') (hApart' : ¬ Continues n' n) (hu : Stops u) (hu' : Stops u')
    (h : n ++ u = n' ++ u') : n = n' ∧ u = u' := by
  -- the longer name would go on with a character that can only be the underscore
  have hLonger : ∀ {m m' v v' w : Text}, IsIdentifier m' → ¬ Continues m m' → Stops v →
      m' = m ++ w → v = w ++ v' → w = [] := by
    intro m m' v v' w hm' hNot hv hw hvw
    cases w with
    | nil => rfl
    | cons c w =>
      have hc : c = '_' ∨ c = '[' ∨ c = ')' := hv c (by simp [hvw])
      have hName : isNameChar c = true := hm'.2 c (by simp [hw])
      obtain rfl | rfl | rfl := hc
      · exact absurd ⟨w, by simp [hw]⟩ hNot
      · exact absurd hName (by decide)
      · exact absurd hName (by decide)
  obtain ⟨w, hw, huw⟩ | ⟨w, hw, huw⟩ := append_eq_append_iff.mp h
  · have hNil := hLonger hn' hApart hu hw huw
    subst hNil
    exact ⟨by simpa using hw.symm, by simpa using huw⟩
  · have hNil := hLonger hn hApart' hu' hw huw
    subst hNil
    exact ⟨by simpa using hw, by simpa using huw.symm⟩

def mangleSuffixes (suffixes : List TypeSuffix) : Text :=
  mangleArg (suffixes.flatMap TypeSuffix.text)

theorem mangleSuffixes_pointer (suffixes : List TypeSuffix) :
    mangleSuffixes (.pointer :: suffixes) = '_' :: (ptrText ++ mangleSuffixes suffixes) := rfl

theorem mangleSuffixes_array {size : Text} (h : (TypeSuffix.array size).WellFormed)
    (suffixes : List TypeSuffix) :
    mangleSuffixes (.array size :: suffixes) = '[' :: (size ++ ']' :: mangleSuffixes suffixes) := by
  rw [mangleSuffixes, flatMap_cons, mangleArg_append, TypeSuffix.text, mangleArg_append,
    mangleArg_cons, mangleArg_eq_self h]
  simp [mangleChar, mangleSuffixes]

variable {r : Text}
variable {suffixes : List TypeSuffix}

theorem stops_suffixes (hSuffixes : ∀ s ∈ suffixes, s.WellFormed) (hr : Stops r) :
    Stops (mangleSuffixes suffixes ++ r) := by
  cases suffixes with
  | nil => exact hr
  | cons s suffixes =>
    cases s with
    | pointer => simp [mangleSuffixes_pointer, Stops]
    | array size =>
      rw [mangleSuffixes_array (hSuffixes _ mem_cons_self)]
      simp [Stops]

theorem size_read {size size' u u' : Text} (hSize : ∀ c ∈ size, isNameChar c = true ∨ c = '.')
    (hSize' : ∀ c ∈ size', isNameChar c = true ∨ c = '.')
    (h : size ++ ']' :: u = size' ++ ']' :: u') : size = size' ∧ u = u' := by
  induction size generalizing size' with
  | nil =>
    cases size' with
    | nil => exact ⟨rfl, by simpa using h⟩
    | cons c size' =>
      obtain rfl : ']' = c := (List.cons.inj h).1
      exact absurd (hSize' _ List.mem_cons_self) (by decide)
  | cons c size ih =>
    cases size' with
    | nil =>
      obtain rfl : c = ']' := (List.cons.inj h).1
      exact absurd (hSize ']' List.mem_cons_self) (by decide)
    | cons c' size' =>
      obtain ⟨rfl, hRest⟩ := List.cons.inj h
      obtain ⟨rfl, rfl⟩ := ih (fun d hd => hSize d (List.mem_cons_of_mem _ hd))
        (fun d hd => hSize' d (List.mem_cons_of_mem _ hd)) hRest
      exact ⟨rfl, rfl⟩

theorem suffixes_read {ss ss' : List TypeSuffix} {r r' : Text}
    (hSuffixes : ∀ s ∈ ss, s.WellFormed) (hSuffixes' : ∀ s ∈ ss', s.WellFormed)
    (hr : Follows r) (hr' : Follows r') (h : mangleSuffixes ss ++ r = mangleSuffixes ss' ++ r') :
    ss = ss' ∧ r = r' := by
  -- a type that ends where the other one goes on would be followed by a suffix
  have hEnd : ∀ {q q' : Text} {s : TypeSuffix} {qs : List TypeSuffix}, Follows q → Follows q' →
      (∀ t ∈ s :: qs, t.WellFormed) → q ≠ mangleSuffixes (s :: qs) ++ q' := by
    intro q q' s qs hq hq' hqs hEq
    cases s with
    | pointer =>
      exact hq.2.2 _ (stops_suffixes (fun t ht => hqs t (mem_cons_of_mem _ ht)) hq'.1) hEq
    | array size =>
      rw [mangleSuffixes_array (hqs _ mem_cons_self)] at hEq
      exact hq.2.1 '[' (by simp [hEq]) rfl
  induction ss generalizing ss' with
  | nil =>
    cases ss' with
    | nil => exact ⟨rfl, h⟩
    | cons s' ss' => exact absurd h (hEnd hr hr' hSuffixes')
  | cons s ss ih =>
    cases ss' with
    | nil => exact absurd h.symm (hEnd hr' hr hSuffixes)
    | cons s' ss' =>
      have hTail : ∀ t ∈ ss, t.WellFormed := fun t ht => hSuffixes t (mem_cons_of_mem _ ht)
      have hTail' : ∀ t ∈ ss', t.WellFormed := fun t ht => hSuffixes' t (mem_cons_of_mem _ ht)
      cases s with
      | pointer =>
        cases s' with
        | pointer =>
          rw [mangleSuffixes_pointer, mangleSuffixes_pointer, cons_append, cons_append,
            append_assoc, append_assoc] at h
          obtain ⟨rfl, hRest⟩ := ih hTail hTail' (append_cancel_left (cons.inj h).2)
          exact ⟨rfl, hRest⟩
        | array size =>
          exact absurd (cons.inj h).1 (by decide)
      | array size =>
        rw [mangleSuffixes_array (hSuffixes _ mem_cons_self)] at h
        cases s' with
        | pointer =>
          exact absurd (cons.inj h).1 (by decide)
        | array size' =>
          rw [mangleSuffixes_array (hSuffixes' _ mem_cons_self), cons_append,
            cons_append, append_assoc, append_assoc] at h
          obtain ⟨rfl, hSame⟩ := size_read (hSuffixes _ mem_cons_self)
            (hSuffixes' _ mem_cons_self) (cons.inj h).2
          obtain ⟨rfl, hRest⟩ := ih hTail hTail' hSame
          exact ⟨rfl, hRest⟩

-- ---
-- Reading whole types
-- ---

/-- Names of types that no text of several types confuses: none continues another one, nor
the mark of a pointer. -/
structure TypeNamesApart (types : List Text) : Prop where
  identifier : ∀ n ∈ types, IsIdentifier n
  apart : ∀ n ∈ ptrText :: types, ∀ n' ∈ ptrText :: types, ¬ Continues n n'
  noPtr : ptrText ∉ types

theorem isIdentifier_ptrText : IsIdentifier ptrText := by
  decide

theorem follows_nil : Follows [] :=
  ⟨by simp [Stops], by simp, by simp⟩

theorem follows_paren (rest : Text) : Follows (')' :: rest) :=
  ⟨by simp [Stops], by simp, by simp⟩

theorem follows_close {rest : Text} (h : Stops rest) : Follows ('_' :: rest) := by
  refine ⟨by simp [Stops], by simp, fun u _ hEq => ?_⟩
  have hHead := h 'p' (by rw [(cons.inj hEq).2]; rfl)
  exact absurd hHead (by decide)

section

variable {types : List Text} {arity : Text → Nat}

theorem mangle_named (hName : IsIdentifier name) (suffixes : List TypeSuffix) :
    mangleArg (TypeTree.named name [] suffixes).text = name ++ mangleSuffixes suffixes := by
  rw [TypeTree.text, mangleArg_append, hName.mangleArg, mangleSuffixes]

theorem mangle_applied (hName : IsIdentifier name) (t : TypeTree) (ts : List TypeTree)
    (suffixes : List TypeSuffix) :
    mangleArg (TypeTree.named name (t :: ts) suffixes).text =
      name ++ '_' :: (mangleArg t.text ++ (mangleArg (TypeTree.restText ts) ++
        '_' :: mangleSuffixes suffixes)) := by
  rw [TypeTree.text, mangleArg_append, hName.mangleArg]
  simp [mangleSuffixes, mangleChar]

theorem mangle_function_nil (returnType : TypeTree) :
    mangleArg (TypeTree.function [] returnType).text =
      ['f', 'n', '(', ')', '-', '_'] ++ mangleArg returnType.text := by
  rfl

theorem mangle_function_cons (t : TypeTree) (ts : List TypeTree) (returnType : TypeTree) :
    mangleArg (TypeTree.function (t :: ts) returnType).text =
      ['f', 'n', '('] ++ (mangleArg t.text ++ (mangleArg (TypeTree.restText ts) ++
        ([')', '-', '_'] ++ mangleArg returnType.text))) := by
  rw [TypeTree.text]
  simp [mangleChar]

theorem mangle_restText_cons (t : TypeTree) (ts : List TypeTree) :
    mangleArg (TypeTree.restText (t :: ts)) =
      '_' :: (mangleArg t.text ++ mangleArg (TypeTree.restText ts)) := by
  rw [TypeTree.restText]
  simp [mangleChar]

theorem named_starts (hTypes : TypeNamesApart types) {typeArgs : List TypeTree}
    (ht : (TypeTree.named name typeArgs suffixes).WellFormed types arity) (hr : Follows r) :
    ∃ u, Stops u ∧ mangleArg (TypeTree.named name typeArgs suffixes).text ++ r = name ++ u := by
  obtain ⟨hName, -, -, hSuffixes⟩ := ht
  have hIdent := hTypes.identifier name hName
  cases typeArgs with
  | nil =>
    refine ⟨_, stops_suffixes hSuffixes hr.1, ?_⟩
    rw [mangle_named hIdent, append_assoc]
  | cons t ts =>
    refine ⟨_, ?_, by rw [mangle_applied hIdent, append_assoc]⟩
    simp [Stops]

theorem function_starts (params : List TypeTree) (returnType : TypeTree) (r : Text) :
    ∃ u, mangleArg (TypeTree.function params returnType).text ++ r = ['f', 'n', '('] ++ u := by
  cases params with
  | nil => exact ⟨_, by rw [mangle_function_nil]; rfl⟩
  | cons t ts => exact ⟨_, by rw [mangle_function_cons, List.append_assoc]⟩

section

variable (hTypes : TypeNamesApart types)
include hTypes

theorem follows_separator {t : TypeTree} (ht : t.WellFormed types arity) (hr : Follows r) :
    Follows ('_' :: (mangleArg t.text ++ r)) := by
  refine ⟨by simp [Stops], by simp, fun u hu hEq => ?_⟩
  have hPtr := (cons.inj hEq).2
  cases t with
  | named name typeArgs suffixes =>
    obtain ⟨v, hv, hStart⟩ := named_starts hTypes ht hr
    have hName : name ∈ types := ht.1
    have hSame := (name_read (hTypes.identifier name hName) isIdentifier_ptrText
      (hTypes.apart name (mem_cons_of_mem _ hName) _ mem_cons_self)
      (hTypes.apart _ mem_cons_self name (mem_cons_of_mem _ hName)) hv hu
      (hStart.symm.trans hPtr)).1
    exact hTypes.noPtr (hSame ▸ hName)
  | function params returnType =>
    obtain ⟨v, hStart⟩ := function_starts params returnType r
    exact absurd (cons.inj (hStart.symm.trans hPtr)).1 (by decide)

theorem follows_rest {ts : List TypeTree} (hts : TypeTree.AllWellFormed types arity ts)
    (hr : Follows r) :
    Follows (mangleArg (TypeTree.restText ts) ++ r) := by
  induction ts with
  | nil => exact hr
  | cons t ts ih =>
    rw [mangle_restText_cons, cons_append, append_assoc]
    exact follows_separator hTypes hts.1 (ih hts.2)

theorem named_ne_function {u v : Text} (hn : n ∈ types) (hu : Stops u) :
    n ++ u ≠ ['f', 'n', '('] ++ v := by
  intro h
  have hIdent := (hTypes.identifier n hn).2
  obtain ⟨w, hw, huw⟩ | ⟨w, hw, -⟩ := List.append_eq_append_iff.mp h
  · -- the name ends inside of `fn(`, so what follows it starts with one of its characters
    have hMem : '(' ∈ w ∨ '(' ∈ n := by
      have : '(' ∈ n ++ w := by rw [← hw]; decide
      exact (List.mem_append.mp this).symm
    obtain hMem | hMem := hMem
    · cases w with
      | nil => cases hMem
      | cons c w =>
        have hc := hu c (by simp [huw])
        have hIn : c ∈ ['f', 'n', '('] := by rw [hw]; simp
        revert hIn
        obtain rfl | rfl | rfl := hc <;> decide
    · exact absurd (hIdent _ hMem) (by decide)
  · exact absurd (hIdent '(' (by simp [hw])) (by decide)

theorem type_not_paren {t : TypeTree} (ht : t.WellFormed types arity) (hr : Follows r) (rest : Text)
    :
    mangleArg t.text ++ r ≠ ')' :: rest := by
  intro h
  cases t with
  | named name typeArgs suffixes =>
    obtain ⟨v, -, hStart⟩ := named_starts hTypes ht hr
    have hIdent := hTypes.identifier name ht.1
    cases name with
    | nil => exact hIdent.1 rfl
    | cons c name =>
      obtain rfl := (List.cons.inj (hStart.symm.trans h)).1
      exact absurd (hIdent.2 ')' List.mem_cons_self) (by decide)
  | function params returnType =>
    obtain ⟨v, hStart⟩ := function_starts params returnType r
    exact absurd (List.cons.inj (hStart.symm.trans h)).1 (by decide)

end

mutual

theorem type_read (hTypes : TypeNamesApart types) :
    ∀ (t t' : TypeTree) {r r' : Text}, t.WellFormed types arity → t'.WellFormed types arity →
      Follows r → Follows r' → mangleArg t.text ++ r = mangleArg t'.text ++ r' →
      t.text = t'.text ∧ r = r'
  | .named name typeArgs suffixes, .named name' typeArgs' suffixes', r, r', ht, ht', hr, hr', h => by
    obtain ⟨hName, hArity, hArgs, hSuffixes⟩ := ht
    obtain ⟨hName', hArity', hArgs', hSuffixes'⟩ := ht'
    have hIdent := hTypes.identifier name hName
    have hIdent' := hTypes.identifier name' hName'
    have hRead : ∀ {u u' : Text}, Stops u → Stops u' → name ++ u = name' ++ u' →
        name = name' ∧ u = u' :=
      name_read hIdent hIdent' (hTypes.apart name (mem_cons_of_mem _ hName) name'
        (mem_cons_of_mem _ hName')) (hTypes.apart name' (mem_cons_of_mem _ hName') name
        (mem_cons_of_mem _ hName))
    cases typeArgs with
    | nil =>
      cases typeArgs' with
      | nil =>
        rw [mangle_named hIdent, mangle_named hIdent', append_assoc, append_assoc] at h
        obtain ⟨rfl, hRest⟩ := hRead (stops_suffixes hSuffixes hr.1)
          (stops_suffixes hSuffixes' hr'.1) h
        obtain ⟨rfl, hEnd⟩ := suffixes_read hSuffixes hSuffixes' hr hr' hRest
        exact ⟨rfl, hEnd⟩
      | cons t' ts' =>
        rw [mangle_named hIdent, mangle_applied hIdent', append_assoc, append_assoc] at h
        obtain ⟨rfl, -⟩ := hRead (stops_suffixes hSuffixes hr.1) (by simp [Stops]) h
        exact absurd (hArity.trans hArity'.symm) (by simp)
    | cons t ts =>
      cases typeArgs' with
      | nil =>
        rw [mangle_applied hIdent, mangle_named hIdent', append_assoc, append_assoc] at h
        obtain ⟨rfl, -⟩ := hRead (by simp [Stops]) (stops_suffixes hSuffixes' hr'.1) h
        exact absurd (hArity.trans hArity'.symm) (by simp)
      | cons t' ts' =>
        rw [mangle_applied hIdent, mangle_applied hIdent', append_assoc, append_assoc] at h
        obtain ⟨rfl, hRest⟩ := hRead (by simp [Stops]) (by simp [Stops]) h
        simp only [cons_append, append_assoc, cons.injEq, true_and] at hRest
        have hClose := follows_close (stops_suffixes hSuffixes hr.1)
        have hClose' := follows_close (stops_suffixes hSuffixes' hr'.1)
        obtain ⟨hFirst, hRest⟩ := type_read hTypes t t' hArgs.1 hArgs'.1
          (follows_rest hTypes hArgs.2 hClose) (follows_rest hTypes hArgs'.2 hClose') hRest
        have hLength : ts.length = ts'.length := by
          simpa using hArity.trans hArity'.symm
        obtain ⟨hTypesEq, hRest⟩ := rest_read hTypes ts ts' hArgs.2 hArgs'.2 hClose hClose'
          (.inl hLength) hRest
        obtain ⟨rfl, hEnd⟩ := suffixes_read hSuffixes hSuffixes' hr hr' (cons.inj hRest).2
        refine ⟨?_, hEnd⟩
        rw [TypeTree.text, TypeTree.text, hFirst, hTypesEq]
  | .named name typeArgs suffixes, .function params' returnType', r, r', ht, _, hr, _, h => by
    obtain ⟨u, hu, hStart⟩ := named_starts hTypes ht hr
    obtain ⟨v, hStart'⟩ := function_starts params' returnType' r'
    exact absurd (hStart.symm.trans (h.trans hStart')) (named_ne_function hTypes ht.1 hu)
  | .function params returnType, .named name' typeArgs' suffixes', r, r', _, ht', _, hr', h => by
    obtain ⟨u, hu, hStart⟩ := named_starts hTypes ht' hr'
    obtain ⟨v, hStart'⟩ := function_starts params returnType r
    exact absurd (hStart.symm.trans (h.symm.trans hStart')) (named_ne_function hTypes ht'.1 hu)
  | .function params returnType, .function params' returnType', r, r', ht, ht', hr, hr', h => by
    obtain ⟨hParams, hReturn⟩ := ht
    obtain ⟨hParams', hReturn'⟩ := ht'
    cases params with
    | nil =>
      cases params' with
      | nil =>
        rw [mangle_function_nil, mangle_function_nil, append_assoc, append_assoc] at h
        obtain ⟨hSame, hEnd⟩ := type_read hTypes returnType returnType' hReturn hReturn' hr hr'
          (append_cancel_left h)
        refine ⟨?_, hEnd⟩
        rw [TypeTree.text, TypeTree.text, hSame]
      | cons t' ts' =>
        rw [mangle_function_nil, mangle_function_cons] at h
        simp only [cons_append, nil_append, append_assoc, cons.injEq, true_and] at h
        exact absurd h.symm (type_not_paren hTypes hParams'.1
          (follows_rest hTypes hParams'.2 (follows_paren _)) _)
    | cons t ts =>
      cases params' with
      | nil =>
        rw [mangle_function_nil, mangle_function_cons] at h
        simp only [cons_append, nil_append, append_assoc, cons.injEq, true_and] at h
        exact absurd h (type_not_paren hTypes hParams.1
          (follows_rest hTypes hParams.2 (follows_paren _)) _)
      | cons t' ts' =>
        rw [mangle_function_cons, mangle_function_cons] at h
        simp only [cons_append, nil_append, append_assoc, cons.injEq, true_and] at h
        obtain ⟨hFirst, hRest⟩ := type_read hTypes t t' hParams.1 hParams'.1
          (follows_rest hTypes hParams.2 (follows_paren _))
          (follows_rest hTypes hParams'.2 (follows_paren _)) h
        obtain ⟨hTypesEq, hRest⟩ := rest_read hTypes ts ts' hParams.2 hParams'.2 (follows_paren _)
          (follows_paren _) (.inr ⟨rfl, rfl⟩) hRest
        simp only [cons.injEq, true_and] at hRest
        obtain ⟨hSame, hEnd⟩ := type_read hTypes returnType returnType' hReturn hReturn' hr hr' hRest
        refine ⟨?_, hEnd⟩
        rw [TypeTree.text, TypeTree.text, hFirst, hTypesEq, hSame]

theorem rest_read (hTypes : TypeNamesApart types) :
    ∀ (ts ts' : List TypeTree) {r r' : Text}, TypeTree.AllWellFormed types arity ts →
      TypeTree.AllWellFormed types arity ts' → Follows r → Follows r' →
      ts.length = ts'.length ∨ (r.head? = some ')' ∧ r'.head? = some ')') →
      mangleArg (TypeTree.restText ts) ++ r = mangleArg (TypeTree.restText ts') ++ r' →
      TypeTree.restText ts = TypeTree.restText ts' ∧ r = r'
  | [], [], _, _, _, _, _, _, _, h => ⟨rfl, h⟩
  | [], t' :: ts', r, r', _, _, _, _, hLength, h => by
    obtain hLength | ⟨hParen, -⟩ := hLength
    · exact absurd hLength (by simp)
    · rw [mangle_restText_cons] at h
      rw [show r = _ from h] at hParen
      exact absurd hParen (by simp)
  | t :: ts, [], r, r', _, _, _, _, hLength, h => by
    obtain hLength | ⟨-, hParen⟩ := hLength
    · exact absurd hLength (by simp)
    · rw [mangle_restText_cons] at h
      rw [show r' = _ from h.symm] at hParen
      exact absurd hParen (by simp)
  | t :: ts, t' :: ts', r, r', hts, hts', hr, hr', hLength, h => by
    rw [mangle_restText_cons, mangle_restText_cons, List.cons_append, List.cons_append,
      List.append_assoc, List.append_assoc] at h
    obtain ⟨hFirst, hRest⟩ := type_read hTypes t t' hts.1 hts'.1 (follows_rest hTypes hts.2 hr)
      (follows_rest hTypes hts'.2 hr') (List.cons.inj h).2
    obtain ⟨hTypesEq, hEnd⟩ := rest_read hTypes ts ts' hts.2 hts'.2 hr hr'
      (hLength.imp_left fun hEq => by simpa using hEq) hRest
    refine ⟨?_, hEnd⟩
    rw [TypeTree.restText, TypeTree.restText, hFirst, hTypesEq]

end

end

theorem typeArgs_read {types : List Text} {arity : Text → Nat} (hTypes : TypeNamesApart types)
    {as as' : List Text} (has : ∀ a ∈ as, IsTypeText types arity a)
    (has' : ∀ a ∈ as', IsTypeText types arity a)
    (h : (as.flatMap fun a => '_' :: '_' :: mangleArg a) =
      as'.flatMap fun a => '_' :: '_' :: mangleArg a) : as = as' := by
  -- behind a type text come two underscores or nothing
  have hFollows : ∀ bs : List Text, Follows (bs.flatMap fun a => '_' :: '_' :: mangleArg a) := by
    intro bs
    cases bs with
    | nil => exact follows_nil
    | cons b bs => exact follows_close (by simp [Stops])
  induction as generalizing as' with
  | nil =>
    cases as' with
    | nil => rfl
    | cons a' as' => simp at h
  | cons a as ih =>
    cases as' with
    | nil => simp at h
    | cons a' as' =>
      obtain ⟨t, ht, rfl⟩ := has a mem_cons_self
      obtain ⟨t', ht', rfl⟩ := has' a' mem_cons_self
      obtain ⟨hText, hRest⟩ := type_read hTypes t t' ht ht' (hFollows as) (hFollows as')
        (cons.inj (cons.inj h).2).2
      rw [hText, ih (fun b hb => has b (mem_cons_of_mem _ hb))
        (fun b hb => has' b (mem_cons_of_mem _ hb)) hRest]

-- ---
-- The names of a program
-- ---

structure ProgramNames where
  /-- The names of its own declarations. -/
  declared : List Text
  /-- The declarations of namespaced imports, each with its alias. -/
  namespaced : List (Text × Text)
  /-- The instances of generic functions and structs. -/
  instances : List (Text × List Text)
  enumInstances : List (Text × List Text)
  /-- The methods of impls: trait, type, method. -/
  impls : List (Text × Text × Text)
  methodCalls : List (Text × Text)
  /-- What the symbol table holds when the method calls are checked. -/
  symbols : List Text
  /-- The names that stand in type arguments, with the number of their parameters. -/
  types : List Text
  arity : Text → Nat

local instance : LawfulBEq Text := inferInstance

def ProgramNames.Generates (p : ProgramNames) : GeneratedName → Prop
  | .instantiation base typeArgs => (base, typeArgs) ∈ p.instances
  | .implMethod traitName forTypeName methodName => (traitName, forTypeName, methodName) ∈ p.impls
  | .qualified moduleAlias name => (moduleAlias, name) ∈ p.namespaced
  | .enumInstance genericName typeArgs => (genericName, typeArgs) ∈ p.enumInstances
  | .methodCall structName functionName =>
    (structName, functionName) ∈ p.methodCalls ∧
      ∃ mangled, desugarStructMethodCall (· ∈ p.symbols) structName functionName = .ok mangled

def ProgramNames.NeverCollide (p : ProgramNames) : Prop :=
  (∀ g g', p.Generates g → p.Generates g' → g.text = g'.text → g = g') ∧
    ∀ g, p.Generates g → g.text ∉ p.declared

def ProgramNames.names (p : ProgramNames) : List Text :=
  p.declared ++ p.namespaced.map fun q => buildQualifiedName q.1 q.2

def ProgramNames.heads (p : ProgramNames) : List Text :=
  p.instances.map Prod.fst ++ p.enumInstances.map Prod.fst

/-- `other` is `part` with a separator behind it, or with the first half of one. -/
def RunsOn (part other : Text) : Prop :=
  other = part ++ ['_'] ∨ (part ++ ['_', '_']) <+: other

instance (part other : Text) : Decidable (RunsOn part other) :=
  inferInstanceAs (Decidable (_ ∨ _))

/-- The names of a program are apart: where a generator puts an underscore behind a name, no
other name of that place goes on with it. -/
structure ProgramNames.Apart (p : ProgramNames) : Prop where
  types : TypeNamesApart p.types
  typeArgs : ∀ i ∈ p.instances, ∀ a ∈ i.2, IsTypeText p.types p.arity a
  typeArgs_ne_nil : ∀ i ∈ p.instances, i.2 ≠ []
  enumTypeArgs : ∀ i ∈ p.enumInstances, ∃ a, i.2 = [a] ∧ ',' ∉ a
  templates : ∀ i ∈ p.instances, ∀ e ∈ p.enumInstances, i.1 ≠ e.1
  heads : ∀ h ∈ p.heads, ∀ h' ∈ p.heads, ¬ RunsOn h h'
  declarations : ∀ h ∈ p.heads, ∀ n ∈ p.names, ¬ (h ++ ['_', '_']) <+: n
  traitNames : ∀ n ∈ p.names ++ p.heads, n ≠ [] ∧ ¬ traitMark <+: n
  aliases : ∀ q ∈ p.namespaced, ∀ q' ∈ p.namespaced, ¬ RunsOn q.1 q'.1
  declaredAliases : ∀ q ∈ p.namespaced, ∀ d ∈ p.declared, ¬ (q.1 ++ ['_', '_']) <+: d
  implIdentifiers : ∀ i ∈ p.impls, IsIdentifier i.1 ∧ IsIdentifier i.2.1 ∧ IsIdentifier i.2.2
  impls : ∀ i ∈ p.impls, ∀ i' ∈ p.impls, ¬ RunsOn i.1 i'.1 ∧ ¬ RunsOn i.2.1 i'.2.1
  structs : ∀ c ∈ p.methodCalls, ∀ c' ∈ p.methodCalls, ¬ Continues c.1 c'.1

-- ---
-- Reading generated names back
-- ---

variable {h x : Text}

theorem part_read {h' x' : Text} (hApart : ¬ RunsOn h h') (hApart' : ¬ RunsOn h' h)
    (hEq : h ++ '_' :: '_' :: x = h' ++ '_' :: '_' :: x') : h = h' ∧ x = x' := by
  have hLonger : ∀ {k k' w y y' : Text}, ¬ RunsOn k k' → k' = k ++ w →
      '_' :: '_' :: y = w ++ '_' :: '_' :: y' → w = [] := by
    intro k k' w y y' hNot hw hy
    match w with
    | [] => rfl
    | [c] =>
      obtain rfl : '_' = c := (cons.inj hy).1
      exact absurd (.inl hw) hNot
    | c :: d :: w =>
      obtain ⟨rfl, hTail⟩ := cons.inj hy
      obtain rfl : '_' = d := (cons.inj hTail).1
      exact absurd (.inr ⟨w, by simp [hw]⟩) hNot
  obtain ⟨w, hw, hx⟩ | ⟨w, hw, hx⟩ := append_eq_append_iff.mp hEq
  · obtain rfl := hLonger hApart hw hx
    exact ⟨by simpa using hw.symm, by simpa using hx⟩
  · obtain rfl := hLonger hApart' hw hx
    exact ⟨by simpa using hw, by simpa using hx.symm⟩

theorem struct_read {s s' f f' : Text} (hApart : ¬ Continues s s') (hApart' : ¬ Continues s' s)
    (hEq : s ++ '_' :: f = s' ++ '_' :: f') : s = s' ∧ f = f' := by
  have hLonger : ∀ {k k' w y y' : Text}, ¬ Continues k k' → k' = k ++ w →
      '_' :: y = w ++ '_' :: y' → w = [] := by
    intro k k' w y y' hNot hw hy
    cases w with
    | nil => rfl
    | cons c w =>
      obtain rfl : '_' = c := (cons.inj hy).1
      exact absurd ⟨w, by simp [hw]⟩ hNot
  obtain ⟨w, hw, hx⟩ | ⟨w, hw, hx⟩ := append_eq_append_iff.mp hEq
  · obtain rfl := hLonger hApart hw hx
    exact ⟨by simpa using hw.symm, by simpa using hx⟩
  · obtain rfl := hLonger hApart' hw hx
    exact ⟨by simpa using hw, by simpa using hx.symm⟩

theorem IsIdentifier.sanitizeComponent (h : IsIdentifier name) : sanitizeComponent name = name := by
  conv_rhs => rw [← map_id name]
  apply map_congr_left
  intro c hc
  simp [h.2 c hc]

theorem enumTypeArg_single {a : Text} (h : ',' ∉ a) : enumTypeArg [a] = a := by
  rw [enumTypeArg, intercalate_singleton, takeWhile_eq_self_iff]
  intro c hc
  have hNe : c ≠ ',' := fun hEq => h (hEq ▸ hc)
  simpa using hNe

variable {typeArgs typeArgs' : List Text}

section

variable {p : ProgramNames} (hApart : p.Apart)

include hApart

/-- An instance of a generic function, struct or enum has the name of its template with a
separator in front of its other part. -/
theorem head_read {h' x' : Text} (hMem : h ∈ p.heads) (hMem' : h' ∈ p.heads)
    (hEq : h ++ '_' :: '_' :: x = h' ++ '_' :: '_' :: x') : h = h' ∧ x = x' :=
  part_read (hApart.heads h hMem h' hMem') (hApart.heads h' hMem' h hMem) hEq

theorem head_not_declared (hMem : h ∈ p.heads) (hn : n ∈ p.names) : h ++ '_' :: '_' :: x ≠ n := by
  intro hEq
  exact hApart.declarations h hMem n hn ⟨x, by simp [← hEq]⟩

theorem traitMark_not_declared (hn : n ∈ p.names) : traitMark ++ x ≠ n := by
  intro hEq
  exact (hApart.traitNames n (mem_append_left _ hn)).2 ⟨x, hEq⟩

theorem traitMark_not_head {y : Text} (hMem : h ∈ p.heads) :
    traitMark ++ '_' :: x ≠ h ++ '_' :: '_' :: y := by
  intro hEq
  obtain ⟨hNil, hMark⟩ := hApart.traitNames h (mem_append_right _ hMem)
  obtain ⟨w, hw, -⟩ | ⟨w, hw, hRest⟩ := append_eq_append_iff.mp hEq
  · exact hMark ⟨w, hw.symm⟩
  · -- the template ends inside of the mark, where no two underscores follow
    have hInits : (h, w) ∈ (range 8).map fun n => (traitMark.take n, traitMark.drop n) := by
      refine mem_map.mpr ⟨h.length, ?_, ?_⟩
      · have hLength : traitMark.length = h.length + w.length := by rw [hw, length_append]
        have hSeven : traitMark.length = 7 := rfl
        exact mem_range.mpr (by omega)
      · rw [hw, take_left, drop_left]
    simp only [traitMark, range, range.loop, map_cons, map_nil, mem_cons,
      Prod.mk.injEq, not_mem_nil, or_false, take, drop] at hInits
    obtain ⟨rfl, rfl⟩ | ⟨rfl, rfl⟩ | ⟨rfl, rfl⟩ | ⟨rfl, rfl⟩ | ⟨rfl, rfl⟩ | ⟨rfl, rfl⟩ |
      ⟨rfl, rfl⟩ | ⟨rfl, rfl⟩ := hInits
    all_goals first
      | exact hNil rfl
      | exact hMark ⟨[], rfl⟩
      | simp at hRest

theorem instantiation_text {base : Text} (h : (base, typeArgs) ∈ p.instances) :
    base ∈ p.heads ∧ ∃ x, mangleName base typeArgs = base ++ '_' :: '_' :: x := by
  refine ⟨mem_append_left _ (mem_map.mpr ⟨_, h, rfl⟩), ?_⟩
  cases typeArgs with
  | nil => exact absurd rfl (hApart.typeArgs_ne_nil _ h)
  | cons a as => exact ⟨_, rfl⟩

omit hApart in
theorem enumInstance_mem_heads {genericName : Text} (h : (genericName, typeArgs) ∈ p.enumInstances)
    : genericName ∈ p.heads :=
  mem_append_right _ (mem_map.mpr ⟨_, h, rfl⟩)

omit hApart in
theorem qualified_mem_names {moduleAlias : Text} (h : (moduleAlias, name) ∈ p.namespaced) :
    buildQualifiedName moduleAlias name ∈ p.names :=
  mem_append_right _ (mem_map.mpr ⟨_, h, rfl⟩)

/-- **Instances** of generic functions and structs: the template comes first, and then the
type texts are read one after the other. -/
theorem mangleName_injective {base base' : Text}
    (h : (base, typeArgs) ∈ p.instances) (h' : (base', typeArgs') ∈ p.instances)
    (hEq : mangleName base typeArgs = mangleName base' typeArgs') :
    base = base' ∧ typeArgs = typeArgs' := by
  obtain ⟨hMem, x, hx⟩ := instantiation_text hApart h
  obtain ⟨hMem', x', hx'⟩ := instantiation_text hApart h'
  obtain ⟨rfl, -⟩ := head_read hApart hMem hMem' (hx.symm.trans (hEq.trans hx'))
  exact ⟨rfl, typeArgs_read hApart.types (hApart.typeArgs _ h) (hApart.typeArgs _ h')
    (append_cancel_left hEq)⟩

theorem enumInstance_injective {genericName genericName' : Text}
    (h : (genericName, typeArgs) ∈ p.enumInstances)
    (h' : (genericName', typeArgs') ∈ p.enumInstances) (hEq : instantiateGenericEnumName genericName
      typeArgs = instantiateGenericEnumName genericName' typeArgs') :
    genericName = genericName' ∧ typeArgs = typeArgs' := by
  obtain ⟨rfl, hArgs⟩ := head_read hApart (enumInstance_mem_heads h) (enumInstance_mem_heads h') hEq
  obtain ⟨a, rfl : typeArgs = [a], ha⟩ := hApart.enumTypeArgs _ h
  obtain ⟨a', rfl : typeArgs' = [a'], ha'⟩ := hApart.enumTypeArgs _ h'
  rw [enumTypeArg_single ha, enumTypeArg_single ha'] at hArgs
  exact ⟨rfl, by rw [hArgs]⟩

theorem implMethod_injective {t t' f f' m m' : Text} (h : (t, f, m) ∈ p.impls)
    (h' : (t', f', m') ∈ p.impls)
    (hEq : mangleImplMethodName t f m = mangleImplMethodName t' f' m') :
    t = t' ∧ f = f' ∧ m = m' := by
  obtain ⟨ht, hf, hm⟩ := hApart.implIdentifiers _ h
  obtain ⟨ht', hf', hm'⟩ := hApart.implIdentifiers _ h'
  rw [mangleImplMethodName, mangleImplMethodName, ht.sanitizeComponent, hf.sanitizeComponent,
    hm.sanitizeComponent, ht'.sanitizeComponent, hf'.sanitizeComponent,
    hm'.sanitizeComponent] at hEq
  obtain ⟨rfl, hRest⟩ := part_read (hApart.impls _ h _ h').1 (hApart.impls _ h' _ h).1
    (cons.inj (append_cancel_left hEq)).2
  obtain ⟨rfl, rfl⟩ := part_read (hApart.impls _ h _ h').2 (hApart.impls _ h' _ h).2 hRest
  exact ⟨rfl, rfl, rfl⟩

theorem defining_injective {g g' : GeneratedName} (h : p.Generates g) (h' : p.Generates g')
    (hDefines : g.Defines) (hDefines' : g'.Defines) (hEq : g.text = g'.text) : g = g' := by
  cases g with
  | instantiation base typeArgs =>
    obtain ⟨hMem, x, hx⟩ := instantiation_text hApart h
    cases g' with
    | instantiation base' typeArgs' =>
      obtain ⟨rfl, rfl⟩ := mangleName_injective hApart h h' hEq
      rfl
    | implMethod t f m => exact absurd (hEq.symm.trans hx) (traitMark_not_head hApart hMem)
    | qualified moduleAlias name =>
      exact absurd (hx.symm.trans hEq) (head_not_declared hApart hMem (qualified_mem_names h'))
    | enumInstance genericName typeArgs' =>
      have hSame := (head_read hApart hMem (enumInstance_mem_heads h') (hx.symm.trans hEq)).1
      exact absurd hSame (hApart.templates _ h _ h')
    | methodCall s f => exact hDefines'.elim
  | implMethod t f m =>
    cases g' with
    | instantiation base' typeArgs' =>
      obtain ⟨hMem, x, hx⟩ := instantiation_text hApart h'
      exact absurd (hEq.trans hx) (traitMark_not_head hApart hMem)
    | implMethod t' f' m' =>
      obtain ⟨rfl, rfl, rfl⟩ := implMethod_injective hApart h h' hEq
      rfl
    | qualified moduleAlias name =>
      exact absurd hEq (traitMark_not_declared hApart (qualified_mem_names h'))
    | enumInstance genericName typeArgs' =>
      exact absurd hEq (traitMark_not_head hApart (enumInstance_mem_heads h'))
    | methodCall s f => exact hDefines'.elim
  | qualified moduleAlias name =>
    cases g' with
    | instantiation base' typeArgs' =>
      obtain ⟨hMem, x, hx⟩ := instantiation_text hApart h'
      exact absurd (hEq.trans hx).symm (head_not_declared hApart hMem (qualified_mem_names h))
    | implMethod t' f' m' =>
      exact absurd hEq.symm (traitMark_not_declared hApart (qualified_mem_names h))
    | qualified moduleAlias' name' =>
      obtain ⟨rfl, rfl⟩ := part_read (hApart.aliases _ h _ h') (hApart.aliases _ h' _ h) hEq
      rfl
    | enumInstance genericName typeArgs' =>
      exact absurd hEq.symm
        (head_not_declared hApart (enumInstance_mem_heads h') (qualified_mem_names h))
    | methodCall s f => exact hDefines'.elim
  | enumInstance genericName typeArgs =>
    cases g' with
    | instantiation base' typeArgs' =>
      obtain ⟨hMem, x, hx⟩ := instantiation_text hApart h'
      have hSame := (head_read hApart (enumInstance_mem_heads h) hMem (hEq.trans hx)).1
      exact absurd hSame.symm (hApart.templates _ h' _ h)
    | implMethod t' f' m' =>
      exact absurd hEq.symm (traitMark_not_head hApart (enumInstance_mem_heads h))
    | qualified moduleAlias' name' =>
      exact absurd hEq
        (head_not_declared hApart (enumInstance_mem_heads h) (qualified_mem_names h'))
    | enumInstance genericName' typeArgs' =>
      obtain ⟨rfl, rfl⟩ := enumInstance_injective hApart h h' hEq
      rfl
    | methodCall s f => exact hDefines'.elim
  | methodCall s f => exact hDefines.elim

theorem defining_not_declared {g : GeneratedName} (h : p.Generates g) (hDefines : g.Defines) :
    g.text ∉ p.declared := by
  intro hDeclared
  have hName : g.text ∈ p.names := mem_append_left _ hDeclared
  cases g with
  | instantiation base typeArgs =>
    obtain ⟨hMem, x, hx⟩ := instantiation_text hApart h
    exact head_not_declared hApart hMem hName hx.symm
  | implMethod t f m => exact traitMark_not_declared hApart hName rfl
  | qualified moduleAlias name =>
    exact hApart.declaredAliases _ h _ hDeclared
      ⟨name, by simp [GeneratedName.text, buildQualifiedName]⟩
  | enumInstance genericName typeArgs =>
    exact head_not_declared hApart (enumInstance_mem_heads h) hName rfl
  | methodCall s f => exact hDefines.elim

end

theorem desugarStructMethodCall_eq_ok {lookup : Text → Bool} {structName functionName mangled : Text}
    (h : desugarStructMethodCall lookup structName functionName = .ok mangled) :
    mangled = methodCallName structName functionName ∧ lookup mangled = true := by
  simp only [desugarStructMethodCall] at h
  split at h
  · cases h
    exact ⟨rfl, ‹_›⟩
  · cases h

/-- Without method calls all generated names define something. -/
theorem neverCollide_of_defining {p : ProgramNames} (hApart : p.Apart)
    (hNone : ∀ structName functionName, ¬ p.Generates (.methodCall structName functionName)) :
    p.NeverCollide := by
  have hDefines : ∀ g, p.Generates g → g.Defines := by
    intro g hg
    cases g with
    | methodCall s f => exact absurd hg (hNone s f)
    | _ => trivial
  exact ⟨fun g g' h h' hEq => defining_injective hApart h h' (hDefines g h) (hDefines g' h') hEq,
    fun g h => defining_not_declared hApart h (hDefines g h)⟩

def vectorNames : ProgramNames where
  declared := ["Box".toList, "Vec".toList, "Vec_push".toList]
  namespaced := [("m".toList, "find".toList), ("m".toList, "find_all".toList)]
  instances := [("Box".toList, ["Pair<Vec*,fn(Vec)->Vec>".toList]),
    ("Box".toList, ["Pair<Vec,Vec>*".toList])]
  enumInstances := [("Option".toList, ["Vec*".toList])]
  impls := [("Show".toList, "Vec".toList, "show".toList)]
  methodCalls := [("Vec".toList, "push".toList)]
  symbols := ["Vec_push".toList]
  types := ["Vec".toList, "Pair".toList]
  arity := fun name => if name = "Pair".toList then 2 else 0

theorem vectorNames_typeArgs : ∀ i ∈ vectorNames.instances, ∀ a ∈ i.2,
    IsTypeText vectorNames.types vectorNames.arity a := by
  have hVec : ∀ suffixes : List TypeSuffix, (∀ s ∈ suffixes, s.WellFormed) →
      (TypeTree.named "Vec".toList [] suffixes).WellFormed vectorNames.types vectorNames.arity :=
    fun suffixes h => ⟨by decide, by decide, trivial, h⟩
  have hPlain := hVec [] (by simp)
  have hPointer := hVec [.pointer] (by simp [TypeSuffix.WellFormed])
  intro i hi a ha
  simp only [vectorNames, mem_cons, not_mem_nil, or_false] at hi
  obtain rfl | rfl := hi
  · obtain rfl := mem_singleton.mp ha
    refine ⟨.named "Pair".toList [.named "Vec".toList [] [.pointer],
      .function [.named "Vec".toList [] []] (.named "Vec".toList [] [])] [], ?_, by decide⟩
    exact ⟨by decide, by decide, ⟨hPointer, ⟨⟨hPlain, trivial⟩, hPlain⟩, trivial⟩, by simp⟩
  · obtain rfl := mem_singleton.mp ha
    refine ⟨.named "Pair".toList [.named "Vec".toList [] [], .named "Vec".toList [] []]
      [.pointer], ?_, by decide⟩
    exact ⟨by decide, by decide, ⟨hPlain, hPlain, trivial⟩, by simp [TypeSuffix.WellFormed]⟩

theorem vectorNames_apart : vectorNames.Apart where
  types := ⟨by decide, by decide, by decide⟩
  typeArgs := vectorNames_typeArgs
  typeArgs_ne_nil := by decide
  enumTypeArgs := by
    intro i hi
    obtain rfl := mem_singleton.mp hi
    exact ⟨_, rfl, by decide⟩
  templates := by decide
  heads := by decide
  declarations := by decide
  traitNames := by decide
  aliases := by decide
  declaredAliases := by decide
  implIdentifiers := by decide
  impls := by decide
  structs := by decide

/-- `struct T { … } struct T_ptr { … } function f<A>(x: A) { … }`, with calls of `f<T*>` and
`f<T_ptr>`. -/
def pointerNames : ProgramNames where
  declared := ["T".toList, "T_ptr".toList, "f".toList]
  namespaced := []
  instances := [("f".toList, ["T*".toList]), ("f".toList, ["T_ptr".toList])]
  enumInstances := []
  impls := []
  methodCalls := []
  symbols := ["T".toList, "T_ptr".toList, "f".toList]
  types := ["T".toList, "T_ptr".toList]
  arity := fun _ => 0

end Mettle.Semantic
