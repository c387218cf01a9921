import Mathlib.Data.List.DropRight
import Mettle.Parser.Tree
import Mettle.Semantic.Mangling

/-!
# Mettle — generic type texts

Monomorphization works on the writing of types: it finds the template and the
arguments of a type like `Vec<int32>*`, puts arguments in the place of parameters,
and writes the name of the instance. Where the source adds an instance to its
context while it substitutes, the functions here list what is asked for, in the
order of the source.
-/

namespace Mettle.Semantic

open Mettle.Parser List

-- ---
-- Template and arguments
-- ---

abbrev Request := Text × List Text

/-- The text in front of the `>` that closes the innermost of `depth` open `<`. -/
def beforeClosing : Nat → Text → Option Text
  | _, [] => none
  | depth, c :: cs =>
    if c = '<' then (beforeClosing (depth + 1) cs).map (c :: ·)
    else if c = '>' then
      if depth = 1 then some [] else (beforeClosing (depth - 1) cs).map (c :: ·)
    else (beforeClosing depth cs).map (c :: ·)

def splitTopLevel : Int → Text → Text × List Text
  | _, [] => ([], [])
  | depth, c :: cs =>
    if c = ',' ∧ depth = 0 then
      let others := splitTopLevel 0 cs
      ([], others.1 :: others.2)
    else
      let others := splitTopLevel
        (if c = '<' then depth + 1 else if c = '>' then depth - 1 else depth) cs
      (c :: others.1, others.2)

def trimSpaces (t : Text) : Text :=
  (t.dropWhile (· == ' ')).rdropWhile (· == ' ')

/-- `parse_generic_type_name`: what stands in front of the first `<`, and the arguments
up to the `>` that closes it. -/
def parseGenericTypeName (typeStr : Text) : Option (Text × List Text) :=
  match typeStr.dropWhile (· != '<') with
  | [] => none
  | _ :: start =>
    (beforeClosing 1 start).map fun inner =>
      let pieces := splitTopLevel 0 inner
      (typeStr.takeWhile (· != '<'), ((pieces.1 :: pieces.2).map trimSpaces).filter (· != []))

/-- The request of a type's spelling. -/
def recordGenericTypeUse (typeName : Text) : List Request :=
  (parseGenericTypeName typeName).toList

-- ---
-- Substitution
-- ---

/-- The text in front of the first `[` at depth 0. -/
def beforeArraySuffix : Int → Text → Text
  | _, [] => []
  | depth, c :: cs =>
    if c = '[' ∧ depth = 0 then []
    else c :: beforeArraySuffix
      (if c = '<' then depth + 1 else if c = '>' then depth - 1 else depth) cs

def coreType (typeStr : Text) : Text :=
  (beforeArraySuffix 0 typeStr).rdropWhile (· == '*')

/-- `substitute_type_string` and the instances that it asks for, with the depth of its calls
counted; `none` if they run out. -/
def substituteTypeString (paramNames argNames : List Text) :
    Nat → Text → Option (Text × List Request)
  | 0, _ => none
  | calls + 1, typeStr =>
    let core := coreType typeStr
    let suffix := typeStr.drop core.length
    match (paramNames.zip argNames).lookup core with
    | some arg => some (arg ++ suffix, [])
    | none =>
      match parseGenericTypeName core with
      | some (genBase, genArgs) =>
        (genArgs.mapM (substituteTypeString paramNames argNames calls)).map fun parts =>
          let substArgs := parts.map Prod.fst
          (mangleName genBase substArgs ++ suffix, parts.flatMap Prod.snd ++ [(genBase, substArgs)])
      | none => some (typeStr, [])

/-- `substitute_type_string`: the arguments of a type are shorter than the type. -/
def substituteType (paramNames argNames : List Text) (typeStr : Text) : Text × List Request :=
  (substituteTypeString paramNames argNames (typeStr.length + 1) typeStr).getD (typeStr, [])

/-- `rewrite_generic_type_name_in_place`: of what stands behind the core, only stars are
kept. -/
def rewriteGenericTypeName (typeStr : Text) : Text :=
  let core := typeStr.rdropWhile (· == '*')
  match parseGenericTypeName core with
  | some (base, args) => mangleName base args ++ typeStr.drop core.length
  | none => typeStr

-- ---
-- The arguments are shorter
-- ---

theorem beforeClosing_length {depth : Nat} {t inner : Text} (h : beforeClosing depth t = some inner) :
    inner.length < t.length := by
  induction t generalizing depth inner with
  | nil => cases h
  | cons c cs ih =>
    rw [beforeClosing] at h
    have hMore : ∀ d, (beforeClosing d cs).map (c :: ·) = some inner →
        inner.length < (c :: cs).length := by
      intro d hd
      obtain ⟨more, hMoreEq, rfl⟩ := Option.map_eq_some_iff.mp hd
      simpa using ih hMoreEq
    split at h
    · exact hMore _ h
    · split at h
      · split at h
        · cases h
          simp
        · exact hMore _ h
      · exact hMore _ h

theorem splitTopLevel_length (depth : Int) (t : Text) :
    ∀ piece ∈ (splitTopLevel depth t).1 :: (splitTopLevel depth t).2, piece.length ≤ t.length := by
  induction t generalizing depth with
  | nil => simp [splitTopLevel]
  | cons c cs ih =>
    rw [splitTopLevel]
    split
    · have hOthers := ih 0
      simp only [mem_cons, length_cons, forall_eq_or_imp, length_nil] at hOthers ⊢
      exact ⟨Nat.zero_le _, by omega, fun piece hPiece => by
        have hLe := hOthers.2 piece hPiece
        omega⟩
    · have hOthers := ih (if c = '<' then depth + 1 else if c = '>' then depth - 1 else depth)
      simp only [mem_cons, length_cons, forall_eq_or_imp] at hOthers ⊢
      exact ⟨by omega, fun piece hPiece => by
        have hLe := hOthers.2 piece hPiece
        omega⟩

theorem trimSpaces_length (t : Text) : (trimSpaces t).length ≤ t.length :=
  (( rdropWhile_prefix (· == ' ') (l := t.dropWhile (· == ' '))).length_le).trans
    (dropWhile_suffix (· == ' ')).length_le

theorem parseGenericTypeName_length {t base : Text} {args : List Text}
    (h : parseGenericTypeName t = some (base, args)) : ∀ arg ∈ args, arg.length < t.length := by
  unfold parseGenericTypeName at h
  have hDrop := (dropWhile_suffix (l := t) (· != '<')).length_le
  split at h
  · cases h
  · rename_i c start hStart
    rw [hStart, length_cons] at hDrop
    obtain ⟨inner, hInner, hParsed⟩ := Option.map_eq_some_iff.mp h
    cases hParsed
    intro arg hArg
    obtain ⟨piece, hPiece, rfl⟩ := mem_map.mp (mem_of_mem_filter hArg)
    have hClosing := beforeClosing_length hInner
    have hSplit := splitTopLevel_length 0 inner piece hPiece
    have hTrim := trimSpaces_length piece
    omega

theorem coreType_length (t : Text) : (coreType t).length ≤ t.length := by
  have hFront : ∀ (depth : Int) (u : Text), (beforeArraySuffix depth u).length ≤ u.length := by
    intro depth u
    induction u generalizing depth with
    | nil => simp [beforeArraySuffix]
    | cons c cs ih =>
      rw [beforeArraySuffix]
      split
      · simp
      · simpa using ih _
  exact ( rdropWhile_prefix _ _).length_le.trans (hFront 0 t)

theorem mapM_eq_some {α β : Type*} {f : α → Option β} {g : α → β} {l : List α}
    (h : ∀ a ∈ l, f a = some (g a)) : l.mapM f = some (l.map g) := by
  induction l with
  | nil => rfl
  | cons a l ih =>
    rw [List.mapM_cons, h a mem_cons_self, ih fun b hb => h b (mem_cons_of_mem a hb)]
    rfl

theorem substituteType_of_returns {paramNames argNames : List Text} {t : Text}
    {result : Text × List Request}
    (h : ∀ extra, substituteTypeString paramNames argNames (t.length + 1 + extra) t = some result) :
    substituteType paramNames argNames t = result := by
  have hResult : substituteTypeString paramNames argNames (t.length + 1) t = some result := h 0
  rw [substituteType, hResult]
  rfl

/-- **Substitution returns** for every text and every list of parameters: an argument that is
split off a type is shorter than the type, so that the calls are nested no deeper than the text is
long. -/
theorem substituteTypeString_returns (paramNames argNames : List Text) (t : Text) (extra : Nat) :
    substituteTypeString paramNames argNames (t.length + 1 + extra) t =
      some (substituteType paramNames argNames t) := by
  suffices hEnds : ∃ result, ∀ extra,
      substituteTypeString paramNames argNames (t.length + 1 + extra) t = some result by
    obtain ⟨result, hResult⟩ := hEnds
    rw [hResult, substituteType_of_returns hResult]
  induction hn : t.length using Nat.strong_induction_on generalizing t with
  | h n ih =>
    subst hn
    cases hParam : (paramNames.zip argNames).lookup (coreType t) with
    | some arg =>
      refine ⟨(arg ++ t.drop (coreType t).length, []), fun extra => ?_⟩
      rw [Nat.add_right_comm, substituteTypeString]
      simp only [hParam]
    | none =>
      cases hParse : parseGenericTypeName (coreType t) with
      | none =>
        refine ⟨(t, []), fun extra => ?_⟩
        rw [Nat.add_right_comm, substituteTypeString]
        simp only [hParam, hParse]
      | some parsed =>
        obtain ⟨base, args⟩ := parsed
        -- each argument has its own result, with the calls that are left
        have hArgs : ∀ extra, args.mapM (substituteTypeString paramNames argNames
            (t.length + extra)) = some (args.map (substituteType paramNames argNames)) := by
          refine fun extra => mapM_eq_some fun arg hArg => ?_
          have hShort := parseGenericTypeName_length hParse arg hArg
          have hCore := coreType_length t
          obtain ⟨result, hResult⟩ := ih arg.length (by omega) arg rfl
          have hCalls : t.length + extra = arg.length + 1 + (t.length + extra - (arg.length + 1)) := by
            omega
          rw [hCalls, hResult, substituteType_of_returns hResult]
        let parts := args.map (substituteType paramNames argNames)
        refine ⟨(mangleName base (parts.map Prod.fst) ++ t.drop (coreType t).length,
          parts.flatMap Prod.snd ++ [(base, parts.map Prod.fst)]), fun extra => ?_⟩
        rw [Nat.add_right_comm, substituteTypeString]
        simp only [hParam, hParse, hArgs extra, Option.map_some, parts]

end Mettle.Semantic
