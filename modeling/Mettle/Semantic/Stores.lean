import Mettle.Semantic.CheckerFrame
import Mettle.Semantic.Program

/-!
# Mettle — the stores of an accepted program

Every assignment, initialiser, argument, constructor payload and return moves a
value into a location. `programMoves` lists the moves of a program with the
types the checker gives the two sides; `Move.WellTyped` says that these are the
same type or that one of the implicit conversions takes one to the other.

The checker lets two kinds of move through that are not:

* `type_checker_types_equal` compares structs by name, but any two enums and any
  two tagged enums are equal to it, at the top of a type and under pointers,
  arrays and signatures;
* an assignment in the increment of a `for` has the type of its value, and
  nothing looks at its target.
-/

namespace Mettle.Semantic

open Mettle.Parser Mettle.Lib

attribute [local simp] Ty.isAssignable Ty.isNumericType

-- ---
-- Types that are the same
-- ---

namespace Ty

mutual

def sameType : Ty → Ty → Bool
  | .pointer _ b, .pointer _ b' => sameType b b'
  | .array _ b n, .array _ b' n' => n == n' && sameType b b'
  | .struct a, .struct a' => a == a'
  | .functionPointer ps r, .functionPointer ps' r' => sameType r r' && sameTypes ps ps'
  | .enum a, .enum a' => a == a'
  | .taggedEnum a, .taggedEnum a' => a == a'
  | .int8, .int8 => true
  | .int16, .int16 => true
  | .int32, .int32 => true
  | .int64, .int64 => true
  | .uint8, .uint8 => true
  | .uint16, .uint16 => true
  | .uint32, .uint32 => true
  | .uint64, .uint64 => true
  | .bool, .bool => true
  | .float32, .float32 => true
  | .float64, .float64 => true
  | .string, .string => true
  | .void, .void => true
  | _, _ => false

def sameTypes : List Ty → List Ty → Bool
  | [], [] => true
  | p :: ps, p' :: ps' => sameType p p' && sameTypes ps ps'
  | _, _ => false

end

mutual

def sameEnums : Ty → Ty → Bool
  | .pointer _ b, .pointer _ b' => sameEnums b b'
  | .array _ b _, .array _ b' _ => sameEnums b b'
  | .functionPointer ps r, .functionPointer ps' r' => sameEnums r r' && sameEnumsList ps ps'
  | .enum a, .enum a' => a == a'
  | .taggedEnum a, .taggedEnum a' => a == a'
  | _, _ => true

def sameEnumsList : List Ty → List Ty → Bool
  | p :: ps, p' :: ps' => sameEnums p p' && sameEnumsList ps ps'
  | _, _ => true

end

mutual

/-- **What the comparison misses.** -/
theorem sameType_eq : ∀ t u : Ty, sameType t u = (typesEqual t u && sameEnums t u)
  | .pointer _ b, u => by
    cases u with
    | pointer _ b' => simpa only [sameType, typesEqual, sameEnums] using sameType_eq b b'
    | _ => rfl
  | .array _ b n, u => by
    cases u with
    | array _ b' n' =>
      simp only [sameType, typesEqual, sameEnums, sameType_eq b b', Bool.and_assoc]
    | _ => rfl
  | .functionPointer ps r, u => by
    cases u with
    | functionPointer ps' r' =>
      simp only [sameType, typesEqual, sameEnums, sameType_eq r r', sameTypes_eq ps ps']
      ac_rfl
    | _ => rfl
  | .struct a, u => by cases u <;> simp [sameType, typesEqual, sameEnums]
  | .enum a, u => by cases u <;> simp [sameType, typesEqual, sameEnums]
  | .taggedEnum a, u => by cases u <;> simp [sameType, typesEqual, sameEnums]
  | .int8, u | .int16, u | .int32, u | .int64, u => by cases u <;> rfl
  | .uint8, u | .uint16, u | .uint32, u | .uint64, u => by cases u <;> rfl
  | .bool, u | .float32, u | .float64, u | .string, u | .void, u => by cases u <;> rfl

theorem sameTypes_eq : ∀ ps qs : List Ty,
    sameTypes ps qs = (typesEqualList ps qs && sameEnumsList ps qs)
  | [], [] => rfl
  | [], _ :: _ => rfl
  | _ :: _, [] => rfl
  | p :: ps, q :: qs => by
    simp only [sameTypes, typesEqualList, sameEnumsList, sameType_eq p q, sameTypes_eq ps qs]
    ac_rfl

end

mutual

theorem sameType_refl : ∀ t : Ty, sameType t t = true
  | .pointer _ b => by simpa only [sameType] using sameType_refl b
  | .array _ b n => by simp [sameType, sameType_refl b]
  | .functionPointer ps r => by simp [sameType, sameType_refl r, sameTypes_refl ps]
  | .struct _ | .enum _ | .taggedEnum _ => by simp [sameType]
  | .int8 | .int16 | .int32 | .int64 | .uint8 | .uint16 | .uint32 | .uint64 => rfl
  | .bool | .float32 | .float64 | .string | .void => rfl

theorem sameTypes_refl : ∀ ps : List Ty, sameTypes ps ps = true
  | [] => rfl
  | p :: ps => by simp [sameTypes, sameType_refl p, sameTypes_refl ps]

end

mutual

theorem typesEqual_comm : ∀ t u : Ty, typesEqual t u = typesEqual u t
  | .pointer _ b, u => by
    cases u with
    | pointer _ b' => simpa only [typesEqual] using typesEqual_comm b b'
    | _ => rfl
  | .array _ b n, u => by
    cases u with
    | array _ b' n' => simp only [typesEqual, typesEqual_comm b b', Bool.beq_comm (a := n)]
    | _ => rfl
  | .functionPointer ps r, u => by
    cases u with
    | functionPointer ps' r' =>
      simp only [typesEqual, typesEqual_comm r r', typesEqualList_comm ps ps']
    | _ => rfl
  | .struct a, u => by
    cases u with
    | struct a' => simp only [typesEqual, Bool.beq_comm (a := a)]
    | _ => rfl
  | .enum _, u | .taggedEnum _, u => by cases u <;> rfl
  | .int8, u | .int16, u | .int32, u | .int64, u => by cases u <;> rfl
  | .uint8, u | .uint16, u | .uint32, u | .uint64, u => by cases u <;> rfl
  | .bool, u | .float32, u | .float64, u | .string, u | .void, u => by cases u <;> rfl

theorem typesEqualList_comm : ∀ ps qs : List Ty, typesEqualList ps qs = typesEqualList qs ps
  | [], [] => rfl
  | [], _ :: _ => rfl
  | _ :: _, [] => rfl
  | p :: ps, q :: qs => by
    simp only [typesEqualList, typesEqual_comm p q, typesEqualList_comm ps qs]

end

/-- `dest` points to the element type of the array `src`. -/
def decaysTo : Ty → Ty → Bool
  | .pointer _ base, .array _ element _ => sameType base element
  | _, _ => false

def enumsLineUp : Ty → Ty → Bool
  | .enum _, .enum _ => true
  | .pointer _ base, .array _ element _ => sameEnums base element
  | dest, src => sameEnums dest src

end Ty

-- ---
-- Moves
-- ---

/-- A value on its way into a location: the type of the location, if it has one,
the type of the value, and whether the location stands in the increment of a
for header. -/
structure Move where
  dest : Option Ty
  src : Ty
  value : Expr
  inIncrement : Bool

/-- The implicit conversions. -/
inductive Converts (dest src : Ty) (value : Expr) : Prop where
  | integer (hSrc : src.isIntegerType = true) (hDest : dest.isIntegerType = true)
  | integerToFloat (hSrc : src.isIntegerType = true) (hDest : dest.isFloatingType = true)
  | float (hSrc : src.isFloatingType = true) (hDest : dest.isFloatingType = true)
  | decay (h : Ty.decaysTo dest src = true)
  | stringToCstring (hDest : dest.isCstringType = true) (hSrc : src = .string)
  | int8PointerToCstring (h : Ty.isInt8PointerToCstring dest src = true)
  | null (hDest : dest.isPointer = true) (h : isNullPointerConstant value = true)

/-- The location is a declared variable or another location with a type, and
the value fits it. -/
def Move.WellTyped (m : Move) : Prop :=
  ∃ t, m.dest = some t ∧ (Ty.sameType t m.src = true ∨ Converts t m.src m.value)

/-- The move lines up equal enums only; in an increment it also passes the check
that an assignment statement makes. -/
def Move.Sound (m : Move) : Prop :=
  ∃ t, m.dest = some t ∧ (m.inIncrement = true → requireAssignable true t m.src m.value = .ok ()) ∧
    ((t.isPointer = true ∧ isNullPointerConstant m.value = true) ∨
      Ty.isInt8PointerToCstring t m.src = true ∨ Ty.enumsLineUp t m.src = true)

/-- The checker has let the move through, unless it did not look at it. -/
def Move.Accepted (m : Move) : Prop :=
  m.inIncrement = false →
    ∃ t nullAllowed, m.dest = some t ∧ requireAssignable nullAllowed t m.src m.value = .ok ()

variable {nullAllowed : Bool} {dest src : Ty} {value : Expr}

theorem requireAssignable_ok : requireAssignable nullAllowed dest src value = .ok () ↔
      (nullAllowed = true ∧ dest.isPointer = true ∧ isNullPointerConstant value = true) ∨
        dest.isAssignable src = true := by
  unfold requireAssignable
  split
  · rename_i h
    simp only [Bool.and_eq_true, and_assoc] at h
    simp [h]
  · rename_i h
    split <;> simp_all

variable {t : Ty}

theorem Ty.typesEqual_of_sameType {u : Ty} (h : t.sameType u = true) : t.typesEqual u = true := by
  rw [sameType_eq, Bool.and_eq_true] at h
  exact h.1

theorem Ty.sameEnums_of_sameType {u : Ty} (h : t.sameType u = true) : t.sameEnums u = true := by
  rw [sameType_eq, Bool.and_eq_true] at h
  exact h.2

theorem Ty.not_isRigid_of_isNumericType (h : t.isNumericType = true) : t.isRigid = false := by
  cases t <;> simp_all [isNumericType, isIntegerType, isFloatingType, isRigid]

theorem Ty.enumsLineUp_of_isNumericType (hDest : dest.isNumericType = true)
    (hSrc : src.isNumericType = true) : enumsLineUp dest src = true := by
  cases dest with
  | enum a => cases src <;> simp_all [isNumericType, isIntegerType, isFloatingType, enumsLineUp,
      sameEnums]
  | _ => simp_all [isNumericType, isIntegerType, isFloatingType, enumsLineUp, sameEnums]

theorem Ty.isArrayDecay_of_decaysTo (h : Ty.decaysTo dest src = true) :
    Ty.isArrayDecay dest src = true := by
  unfold Ty.decaysTo at h
  split at h
  · exact Ty.typesEqual_of_sameType h
  · cases h

theorem requireAssignable_of_wellTyped (h : dest.sameType src = true ∨ Converts dest src value) :
    requireAssignable true dest src value = .ok () := by
  have hNumeric : src.isNumericType = true → dest.isNumericType = true →
      src.isImplicitlyConvertible dest = true → dest.isAssignable src = true := by
    intro hSrc hDest hConv
    simp [Ty.not_isRigid_of_isNumericType hSrc, Ty.not_isRigid_of_isNumericType hDest, hConv]
  rw [requireAssignable_ok]
  rcases h with hSame | hConv
  · exact .inr (by simp [Ty.typesEqual_of_sameType hSame])
  · cases hConv with
    | integer hSrc hDest =>
      exact .inr (hNumeric (by simp [hSrc]) (by simp [hDest])
        (by simp [Ty.isImplicitlyConvertible, hSrc, hDest]))
    | integerToFloat hSrc hDest =>
      exact .inr (hNumeric (by simp [hSrc]) (by simp [hDest])
        (by simp [Ty.isImplicitlyConvertible, hSrc, hDest]))
    | float hSrc hDest =>
      exact .inr (hNumeric (by simp [hSrc]) (by simp [hDest])
        (by simp [Ty.isImplicitlyConvertible, hSrc, hDest]))
    | decay hDecay => exact .inr (by simp [Ty.isArrayDecay_of_decaysTo hDecay])
    | stringToCstring hDest hSrc =>
      exact .inr (by simp [hDest, hSrc, Ty.typesEqual])
    | int8PointerToCstring hPointer => exact .inr (by simp [hPointer])
    | null hDest hNull => exact .inl ⟨rfl, hDest, hNull⟩

theorem enumsLineUp_of_wellTyped (h : dest.sameType src = true ∨ Converts dest src value) :
    (dest.isPointer = true ∧ isNullPointerConstant value = true) ∨
      Ty.isInt8PointerToCstring dest src = true ∨ Ty.enumsLineUp dest src = true := by
  rcases h with hSame | hConv
  · refine .inr (.inr ?_)
    unfold Ty.enumsLineUp
    split
    · rfl
    · simp [Ty.sameType] at hSame
    · exact Ty.sameEnums_of_sameType hSame
  · cases hConv with
    | integer hSrc hDest =>
      exact .inr (.inr (Ty.enumsLineUp_of_isNumericType (by simp [hDest]) (by simp [hSrc])))
    | integerToFloat hSrc hDest =>
      exact .inr (.inr (Ty.enumsLineUp_of_isNumericType (by simp [hDest]) (by simp [hSrc])))
    | float hSrc hDest =>
      exact .inr (.inr (Ty.enumsLineUp_of_isNumericType (by simp [hDest]) (by simp [hSrc])))
    | decay hDecay =>
      refine .inr (.inr ?_)
      unfold Ty.decaysTo at hDecay
      split at hDecay
      · exact Ty.sameEnums_of_sameType hDecay
      · cases hDecay
    | stringToCstring hDest hSrc =>
      exact .inr (.inr (by cases dest <;> simp_all [Ty.isCstringType, Ty.enumsLineUp, Ty.sameEnums]))
    | int8PointerToCstring hPointer => exact .inr (.inl hPointer)
    | null hDest hNull => exact .inl ⟨hDest, hNull⟩

/-- **What the check leaves open.** -/
theorem wellTyped_of_enumsLineUp (hRequire : requireAssignable nullAllowed dest src value = .ok ())
    (h : (dest.isPointer = true ∧ isNullPointerConstant value = true) ∨
      Ty.isInt8PointerToCstring dest src = true ∨ Ty.enumsLineUp dest src = true) :
    dest.sameType src = true ∨ Converts dest src value := by
  rcases h with ⟨hDest, hNull⟩ | hPointer | hLine
  · exact .inr (.null hDest hNull)
  · exact .inr (.int8PointerToCstring hPointer)
  rcases requireAssignable_ok.1 hRequire with ⟨-, hDest, hNull⟩ | hAssign
  · exact .inr (.null hDest hNull)
  unfold Ty.isAssignable at hAssign
  split at hAssign
  · rename_i hEqual
    unfold Ty.enumsLineUp at hLine
    split at hLine
    · exact .inr (.integer rfl rfl)
    · simp [Ty.typesEqual] at hEqual
    · exact .inl (by rw [Ty.sameType_eq, hEqual, hLine, Bool.and_self])
  rename_i hEqual
  split at hAssign
  · rename_i hString
    rw [Bool.and_eq_true] at hString
    exact .inr (.stringToCstring hString.1 (by cases src <;> simp_all [Ty.typesEqual]))
  split at hAssign
  · rename_i hPointer
    exact .inr (.int8PointerToCstring hPointer)
  split at hAssign
  · rename_i hDecay
    refine .inr (.decay ?_)
    unfold Ty.isArrayDecay at hDecay
    split at hDecay
    · simp only [Ty.enumsLineUp] at hLine
      simp [Ty.decaysTo, Ty.sameType_eq, hDecay, hLine]
    · cases hDecay
  split at hAssign
  · cases hAssign
  rw [Ty.typesEqual_comm] at hEqual
  simp only [Ty.isImplicitlyConvertible, hEqual, Bool.or_eq_true, Bool.and_eq_true] at hAssign
  rcases hAssign with (((hFalse | ⟨hSrc, hDest⟩) | ⟨hSrc, hDest⟩) | ⟨hSrc, hDest⟩)
  · cases hFalse
  · exact .inr (.integer hSrc hDest)
  · exact .inr (.integerToFloat hSrc hDest)
  · exact .inr (.float hSrc hDest)

/-- **One move.** -/
theorem Move.wellTyped_iff {m : Move} (h : m.Accepted) : m.WellTyped ↔ m.Sound := by
  constructor
  · rintro ⟨t, hDest, hFits⟩
    exact ⟨t, hDest, fun _ => requireAssignable_of_wellTyped hFits, enumsLineUp_of_wellTyped hFits⟩
  · rintro ⟨t, hDest, hIncrement, hLine⟩
    refine ⟨t, hDest, ?_⟩
    cases hInc : m.inIncrement with
    | true => exact wellTyped_of_enumsLineUp (hIncrement hInc) hLine
    | false =>
      obtain ⟨t', nullAllowed, hDest', hRequire⟩ := h hInc
      obtain rfl : t' = t := Option.some.inj (hDest'.symm.trans hDest)
      exact wellTyped_of_enumsLineUp hRequire hLine

-- ---
-- The moves of a program
-- ---

def follow {α : Type} (m : Check α) (c : Checker) (next : α → Checker → List Move) : List Move :=
  match m c with
  | .ok (a, c') => next a c'
  | .error _ => []

variable {c c' : Checker}

theorem follow_ok {α : Type} {m : Check α} {a : α} {next : α → Checker → List Move}
    (h : m c = .ok (a, c')) : follow m c next = next a c' := by
  simp only [follow, h]

def parametersOf (Γ : Context) (c : Checker) (f : Name) (count : Nat) : List Ty :=
  match Γ.lookup c f with
  | none => []
  | some (symbol, _) =>
    match callSignature f symbol count with
    | .ok (parameters, _, _) => parameters
    | .error _ => []

mutual

def exprMoves (Γ : Context) : Expr → Checker → List Move
  | .numberLiteral _ _, _ => []
  | .floatLiteral _, _ => []
  | .stringLiteral _, _ => []
  | .identifier _, _ => []
  | .newExpression _, _ => []
  | .binaryExpression l _ r, c =>
    exprMoves Γ l c ++ follow (inferType Γ l) c fun _ c' => exprMoves Γ r c'
  | .unaryExpression _ e, c => exprMoves Γ e c
  | .functionCall f arguments, c =>
    if isCompileTime f then []
    else argumentMoves Γ arguments (parametersOf Γ c f arguments.length) c
  | .methodCall object f arguments, c =>
    if isCompileTime f then []
    else exprMoves Γ object c ++ follow (inferType Γ object) c fun receiver c' =>
        match receiverStruct receiver with
        | none => []
        | some s =>
          match parametersOf Γ c' (s ++ "_" ++ f) (arguments.length + 1) with
          | [] => []
          | parameter :: rest =>
            ⟨some parameter, receiver, object, false⟩ :: argumentMoves Γ arguments rest c'
  | .funcPtrCall function arguments, c =>
    exprMoves Γ function c ++ follow (inferType Γ function) c fun t c' =>
        match calleeSignature Γ c' function t with
        | none => []
        | some (parameters, _) => argumentMoves Γ arguments parameters c'
  | .memberAccess object _, c => exprMoves Γ object c
  | .indexExpression array index, c =>
    exprMoves Γ array c ++ follow (inferType Γ array) c fun _ c' => exprMoves Γ index c'
  | .castExpression typeName operand, c =>
    follow (resolveType Γ typeName "Unknown target type for cast") c fun _ c' =>
      exprMoves Γ operand c'
  | .matchExpression subject arms, c =>
    exprMoves Γ subject c ++ follow (inferType Γ subject) c fun t c' =>
        match subjectVariants Γ t with
        | .error _ => []
        | .ok variants => armMoves Γ t.name variants arms [] c'

def argumentMoves (Γ : Context) : List Expr → List Ty → Checker → List Move
  | argument :: arguments, parameter :: parameters, c =>
    exprMoves Γ argument c ++ follow (inferType Γ argument) c fun t c' =>
        ⟨some parameter, t, argument, false⟩ :: argumentMoves Γ arguments parameters c'
  | _, _, _ => []

def armMoves (Γ : Context) (typeName : String) (variants : List (Name × Option Ty)) :
    List (Pattern × Expr) → List Nat → Checker → List Move
  | [], _, _ => []
  | (pattern, body) :: arms, covered, c =>
    match checkPattern typeName variants covered pattern with
    | .error _ => []
    | .ok (covered, binding) =>
      exprMoves Γ body (bindingScopes binding c) ++
        follow (withBinding binding (inferType Γ body)) c fun _ c' =>
          armMoves Γ typeName variants arms covered c'

end

def declarationMoves (Γ : Context) (typeName : Option String) : Option Expr → Checker → List Move
  | none, _ => []
  | some e, c =>
    follow (resolveAnnotated Γ typeName) c fun annotated c' =>
      exprMoves Γ e c' ++
        follow (inferType Γ e) c' fun t _ => [⟨some (annotated.getD t), t, e, false⟩]

def variableType (Γ : Context) (c : Checker) (x : Name) : Option Ty :=
  match Γ.lookup c x with
  | some (.var t _, _) => some t
  | _ => none

def assignmentMoves (Γ : Context) (inIncrement : Bool) (x : Name) (value : Expr) (c : Checker) :
    List Move :=
  exprMoves Γ value c ++
    follow (inferType Γ value) c fun t _ => [⟨variableType Γ c x, t, value, inIncrement⟩]

def targetAssignmentMoves (Γ : Context) (target value : Expr) (c : Checker) : List Move :=
  exprMoves Γ target c ++ follow (inferTarget Γ target) c fun t c' =>
      exprMoves Γ value c' ++ follow (inferType Γ value) c' fun u _ => [⟨some t, u, value, false⟩]

def targetType (Γ : Context) (target : Expr) (c : Checker) : Option Ty :=
  match inferTarget Γ target c with
  | .ok (t, _) => some t
  | .error _ => none

def incrementTargetMoves (Γ : Context) (target value : Expr) (c : Checker) : List Move :=
  (exprMoves Γ target c).map (fun m => { m with inIncrement := true }) ++ exprMoves Γ value c ++
    follow (inferType Γ value) c fun u _ => [⟨targetType Γ target c, u, value, true⟩]

def initializerMoves (Γ : Context) : Option Stmt → Checker → List Move
  | some (.varDeclaration _ typeName e), c => declarationMoves Γ typeName e c
  | some (.assignment x e), c => assignmentMoves Γ false x e c
  | some (.targetAssignment target e), c => targetAssignmentMoves Γ target e c
  | some (.expression e), c => exprMoves Γ e c
  | _, _ => []

def incrementMoves (Γ : Context) : Option Stmt → Checker → List Move
  | some (.assignment x e), c => assignmentMoves Γ true x e c
  | some (.targetAssignment target e), c => incrementTargetMoves Γ target e c
  | some (.expression e), c => exprMoves Γ e c
  | _, _ => []

def optionalMoves (Γ : Context) : Option Expr → Checker → List Move
  | none, _ => []
  | some e, c => exprMoves Γ e c

mutual

def statementMoves (Γ : Context) : Stmt → Checker → List Move
  | .varDeclaration _ typeName e, c => declarationMoves Γ typeName e c
  | .assignment x e, c => assignmentMoves Γ false x e c
  | .targetAssignment target e, c => targetAssignmentMoves Γ target e c
  | .expression e, c => exprMoves Γ e c
  | .returnStatement none, _ => []
  | .returnStatement (some e), c =>
    exprMoves Γ e c ++ follow (inferType Γ e) c fun t _ => [⟨some Γ.returnType, t, e, false⟩]
  | .ifStatement condition thenBranch elseIfs elseBranch, c =>
    exprMoves Γ condition c ++ follow (checkCondition Γ condition) c fun _ c₀ =>
        statementMoves Γ thenBranch c₀ ++
          follow (do checkStatement Γ thenBranch; restoreSnapshot (capture c₀.tracked)) c₀
            fun _ c₁ => elseIfMoves Γ (capture c₀.tracked) elseIfs c₁ ++
              follow (checkElseIfs Γ (capture c₀.tracked) elseIfs) c₁
                fun _ c₂ => elseMoves Γ elseBranch c₂
  | .whileStatement _ condition body, c =>
    exprMoves Γ condition c ++
      follow (checkCondition Γ condition) c fun _ c₀ => statementMoves Γ body c₀.enterLoop
  | .forStatement _ initializer condition increment body, c =>
    initializerMoves Γ initializer c.enterScope ++
      follow (checkForInitializer Γ initializer) c.enterScope fun _ c₀ =>
        optionalMoves Γ condition c₀ ++ follow (checkForCondition Γ condition) c₀ fun _ c₁ =>
            incrementMoves Γ increment c₁ ++ follow (checkForIncrement Γ increment) c₁
                fun _ c₂ => statementMoves Γ body c₂.enterLoop
  | .switchStatement e cases, c =>
    exprMoves Γ e c ++ follow (inferType Γ e) c fun t c₀ =>
        caseMoves Γ t (capture c₀.tracked) cases [] c₀.enterSwitch
  | .matchStatement e arms, c =>
    exprMoves Γ e c ++ follow (inferType Γ e) c fun t c₀ =>
        match subjectVariants Γ t with
        | .error _ => []
        | .ok variants => matchMoves Γ t.name variants arms [] c₀
  | .deferStatement s, c => statementMoves Γ s c
  | .errdeferStatement s, c => statementMoves Γ s c
  | .block statements, c => statementsMoves Γ statements c.enterScope
  | .breakStatement _, _ => []
  | .continueStatement _, _ => []
  | .inlineAsm _, _ => []

def statementsMoves (Γ : Context) : List Stmt → Checker → List Move
  | [], _ => []
  | s :: rest, c =>
    statementMoves Γ s c ++ follow (checkStatement Γ s) c fun _ c' => statementsMoves Γ rest c'

def elseIfMoves (Γ : Context) (snapshot : List Bool) : List (Expr × Stmt) → Checker → List Move
  | [], _ => []
  | (condition, body) :: rest, c =>
    exprMoves Γ condition c ++ follow (checkCondition Γ condition) c fun _ c₀ =>
        statementMoves Γ body c₀ ++ follow (do checkStatement Γ body; restoreSnapshot snapshot) c₀
            fun _ c₁ => elseIfMoves Γ snapshot rest c₁

def elseMoves (Γ : Context) : Option Stmt → Checker → List Move
  | none, _ => []
  | some s, c => statementMoves Γ s c

def caseMoves (Γ : Context) (switchType : Ty) (snapshot : List Bool) :
    List (Option Expr × List Stmt) → List Int → Checker → List Move
  | [], _, _ => []
  | (none, body) :: cases, values, c =>
    statementsMoves Γ body c.enterScope ++ follow (do checkBlock Γ body; restoreSnapshot snapshot) c
        fun _ c₁ => caseMoves Γ switchType snapshot cases values c₁
  | (some e, body) :: cases, values, c =>
    exprMoves Γ e c ++ follow (checkCaseValue Γ switchType values e) c fun values' c₀ =>
        statementsMoves Γ body c₀.enterScope ++
          follow (do checkBlock Γ body; restoreSnapshot snapshot) c₀
            fun _ c₁ => caseMoves Γ switchType snapshot cases values' c₁

def matchMoves (Γ : Context) (typeName : String) (variants : List (Name × Option Ty)) :
    List (Pattern × List Stmt) → List Nat → Checker → List Move
  | [], _, _ => []
  | (pattern, body) :: arms, covered, c =>
    match checkPattern typeName variants covered pattern with
    | .error _ => []
    | .ok (covered, binding) =>
      statementsMoves Γ body (bindingScopes binding c).enterScope ++
        follow (withBinding binding (checkBlock Γ body)) c
          fun _ c' => matchMoves Γ typeName variants arms covered c'

end

def topMoves (top : Top) : Declaration → List Move
  | .varDeclaration _ typeName e _ _ =>
    declarationMoves top.context.top typeName e (topState top.context)
  | .functionDeclaration f parameters returnType (some body) =>
    match functionSignature top f parameters returnType with
    | .error _ => []
    | .ok (types, r) =>
      statementMoves { (top.register f types r false).context with returnType := r } body
        (functionEntry (signatureParameters parameters types))
  | .assignment x value =>
    assignmentMoves top.context.top false x value (topState top.context)
  | .targetAssignment target value =>
    targetAssignmentMoves top.context.top target value (topState top.context)
  | _ => []

def programMoves : Top → List Declaration → List Move
  | _, [] => []
  | top, d :: rest =>
    topMoves top d ++
      match processDeclaration top d with
      | .ok top' => programMoves top' rest
      | .error _ => []

-- ---
-- Accepted moves
-- ---

/-- The checker has let every move of the list through. -/
def AllAccepted (moves : List Move) : Prop := ∀ m ∈ moves, m.Accepted

theorem AllAccepted.nil : AllAccepted [] := by simp [AllAccepted]

theorem AllAccepted.append {l l' : List Move} (h : AllAccepted l) (h' : AllAccepted l') :
    AllAccepted (l ++ l') :=
  fun m hm => (List.mem_append.1 hm).elim (h m) (h' m)

theorem AllAccepted.cons {l : List Move}
    (hRequire : requireAssignable nullAllowed dest src value = .ok ()) (h : AllAccepted l) :
    AllAccepted (⟨some dest, src, value, false⟩ :: l) := by
  intro m hm
  rcases List.mem_cons.1 hm with rfl | hm
  · exact fun _ => ⟨dest, nullAllowed, rfl, hRequire⟩
  · exact h m hm

variable {Γ : Context}
variable {f : Name}

theorem parametersOf_eq {symbol : Symbol} {isLocal : Bool} {count : Nat}
    {signature : List Ty × Bool × Ty} (hLookup : Γ.lookup c f = some (symbol, isLocal))
    (hSignature : callSignature f symbol count = .ok signature) :
    parametersOf Γ c f count = signature.1 := by
  simp only [parametersOf, hLookup, hSignature]

variable {arguments : List Expr}

theorem inferType_functionCall (h : inferType Γ (.functionCall f arguments) c = .ok (t, c'))
    (hCall : isCompileTime f = false) :
    ∃ nullAllowed, inferArguments Γ nullAllowed arguments
      (parametersOf Γ c f arguments.length) c = .ok ((), c') := by
  simp only [isCompileTime, Bool.or_eq_false_iff, beq_eq_false_iff_ne] at hCall
  simp only [inferType, if_neg hCall.1, if_neg hCall.2] at h
  obtain ⟨_, _, hGet, h⟩ := bind_run_ok.1 h
  cases get_run_ok.1 hGet
  rcases hLookup : Γ.lookup c f with _ | ⟨symbol, isLocal⟩
  · rw [hLookup] at h
    cases throw_run_ok.1 h
  rw [hLookup] at h
  simp only [bind_run_ok, lift_run_ok, pure_run_ok, Prod.mk.injEq] at h
  obtain ⟨_, _, ⟨signature, hSignature, rfl, rfl⟩, _, c₁, hArguments, -, rfl⟩ := h
  rw [parametersOf_eq hLookup hSignature]
  exact ⟨_, hArguments⟩

theorem inferType_methodCall {object : Expr}
    (h : inferType Γ (.methodCall object f arguments) c = .ok (t, c'))
    (hCall : isCompileTime f = false) :
    ∃ receiver c₁ s, inferType Γ object c = .ok (receiver, c₁) ∧ receiverStruct receiver = some s ∧
      (parametersOf Γ c₁ (s ++ "_" ++ f) (arguments.length + 1) = [] ∨ ∃ parameter rest nullAllowed,
          parametersOf Γ c₁ (s ++ "_" ++ f) (arguments.length + 1) = parameter :: rest ∧
          requireAssignable nullAllowed parameter receiver object = .ok () ∧
          inferArguments Γ nullAllowed arguments rest c₁ = .ok ((), c')) := by
  simp only [isCompileTime, Bool.or_eq_false_iff, beq_eq_false_iff_ne] at hCall
  simp only [inferType, if_neg hCall.1, if_neg hCall.2] at h
  obtain ⟨receiver, c₁, hObject, h⟩ := bind_run_ok.1 h
  cases hStruct : receiverStruct receiver with
  | none =>
    rw [hStruct] at h
    cases throw_run_ok.1 h
  | some s =>
    rw [hStruct] at h
    refine ⟨receiver, c₁, s, hObject, hStruct, ?_⟩
    obtain ⟨_, _, hGet, h⟩ := bind_run_ok.1 h
    cases get_run_ok.1 hGet
    rcases hLookup : Γ.lookup c₁ (s ++ "_" ++ f) with _ | ⟨symbol, isLocal⟩
    · rw [hLookup] at h
      cases throw_run_ok.1 h
    rw [hLookup] at h
    obtain ⟨_, _, hLift, h⟩ := bind_run_ok.1 h
    obtain ⟨signature, hSignature, hEq⟩ := lift_run_ok.1 hLift
    obtain ⟨rfl, rfl⟩ := Prod.mk.inj hEq
    rw [parametersOf_eq hLookup hSignature]
    obtain ⟨parameters, nullAllowed, type⟩ := signature
    cases parameters with
    | nil => exact .inl rfl
    | cons parameter rest =>
      simp only [bind_run_ok, lift_run_ok, pure_run_ok, Prod.mk.injEq] at h
      obtain ⟨_, _, ⟨_, hRequire, -, rfl⟩, _, c₂, hArguments, -, rfl⟩ := h
      exact .inr ⟨parameter, rest, nullAllowed, rfl, hRequire, hArguments⟩

theorem inferType_funcPtrCall {function : Expr}
    (h : inferType Γ (.funcPtrCall function arguments) c = .ok (t, c')) :
    ∃ u c₁ parameters returnType, inferType Γ function c = .ok (u, c₁) ∧
      calleeSignature Γ c₁ function u = some (parameters, returnType) ∧
      inferArguments Γ true arguments parameters c₁ = .ok ((), c') := by
  obtain ⟨u, c₁, hFunction, h⟩ := bind_run_ok.1 h
  obtain ⟨_, _, hGet, h⟩ := bind_run_ok.1 h
  cases get_run_ok.1 hGet
  rcases hSignature : calleeSignature Γ c₁ function u with _ | ⟨parameters, returnType⟩
  · rw [hSignature] at h
    cases throw_run_ok.1 h
  rw [hSignature] at h
  dsimp only at h
  split at h
  · cases throw_run_ok.1 h
  · simp only [bind_run_ok, pure_run_ok, Prod.mk.injEq] at h
    obtain ⟨_, c₂, hArguments, -, rfl⟩ := h
    exact ⟨u, c₁, parameters, returnType, hFunction, hSignature, hArguments⟩

variable {e : Expr}

theorem inferType_unaryExpression {op : UnaryOp}
    (h : inferType Γ (.unaryExpression op e) c = .ok (t, c')) :
    (∃ x, e = .identifier x) ∨ ∃ u c₁, inferType Γ e c = .ok (u, c₁) := by
  cases op with
  | addressOf =>
    obtain ⟨_, _, hGet, h⟩ := bind_run_ok.1 h
    cases get_run_ok.1 hGet
    cases hNamed : functionNamed Γ c e with
    | some signature =>
      left
      cases e with
      | identifier x => exact ⟨x, rfl⟩
      | _ => simp [functionNamed] at hNamed
    | none =>
      rw [hNamed] at h
      dsimp only at h
      split at h
      · cases throw_run_ok.1 h
      · obtain ⟨u, c₁, hInfer, -⟩ := bind_run_ok.1 h
        exact .inr ⟨u, c₁, hInfer⟩
  | _ =>
    obtain ⟨u, c₁, hInfer, -⟩ := bind_run_ok.1 h
    exact .inr ⟨u, c₁, hInfer⟩

mutual

/-- **Expressions.** -/
theorem inferType_accepted (Γ : Context) : ∀ (e : Expr) {c c' : Checker} {t : Ty},
    inferType Γ e c = .ok (t, c') → AllAccepted (exprMoves Γ e c)
  | .numberLiteral _ _, _, _, _, _ => AllAccepted.nil
  | .floatLiteral _, _, _, _, _ => AllAccepted.nil
  | .stringLiteral _, _, _, _, _ => AllAccepted.nil
  | .identifier _, _, _, _, _ => AllAccepted.nil
  | .newExpression _, _, _, _, _ => AllAccepted.nil
  | .binaryExpression l op r, c, c', t, h => by
    simp only [inferType, bind_run_ok] at h
    obtain ⟨left, c₁, hLeft, right, c₂, hRight, -⟩ := h
    simp only [exprMoves, follow_ok hLeft]
    exact (inferType_accepted Γ l hLeft).append (inferType_accepted Γ r hRight)
  | .unaryExpression op e, c, c', t, h => by
    rcases inferType_unaryExpression h with ⟨x, rfl⟩ | ⟨u, c₁, hInfer⟩
    · exact AllAccepted.nil
    · exact inferType_accepted Γ e hInfer
  | .functionCall f arguments, c, c', t, h => by
    simp only [exprMoves]
    split
    · exact AllAccepted.nil
    · rename_i hCall
      obtain ⟨nullAllowed, hArguments⟩ := inferType_functionCall h (by simpa using hCall)
      exact inferArguments_accepted Γ arguments hArguments
  | .methodCall object f arguments, c, c', t, h => by
    simp only [exprMoves]
    split
    · exact AllAccepted.nil
    · rename_i hCall
      obtain ⟨receiver, c₁, s, hObject, hStruct, hParameters⟩ :=
        inferType_methodCall h (by simpa using hCall)
      simp only [follow_ok hObject, hStruct]
      refine (inferType_accepted Γ object hObject).append ?_
      rcases hParameters with hNil | ⟨parameter, rest, nullAllowed, hCons, hRequire, hArguments⟩
      · rw [hNil]
        exact AllAccepted.nil
      · rw [hCons]
        exact (inferArguments_accepted Γ arguments hArguments).cons hRequire
  | .funcPtrCall function arguments, c, c', t, h => by
    obtain ⟨u, c₁, parameters, returnType, hFunction, hSignature, hArguments⟩ :=
      inferType_funcPtrCall h
    simp only [exprMoves, follow_ok hFunction, hSignature]
    exact (inferType_accepted Γ function hFunction).append
      (inferArguments_accepted Γ arguments hArguments)
  | .memberAccess object field, c, c', t, h => by
    simp only [inferType, bind_run_ok] at h
    obtain ⟨u, c₁, hObject, -⟩ := h
    exact inferType_accepted Γ object hObject
  | .indexExpression array index, c, c', t, h => by
    simp only [inferType, bind_run_ok] at h
    obtain ⟨u, c₁, hArray, v, c₂, hIndex, -⟩ := h
    simp only [exprMoves, follow_ok hArray]
    exact (inferType_accepted Γ array hArray).append (inferType_accepted Γ index hIndex)
  | .castExpression typeName operand, c, c', t, h => by
    simp only [inferType, bind_run_ok] at h
    obtain ⟨target, c₁, hTarget, u, c₂, hOperand, -⟩ := h
    simp only [exprMoves, follow_ok hTarget]
    exact inferType_accepted Γ operand hOperand
  | .matchExpression subject arms, c, c', t, h => by
    simp only [inferType, bind_run_ok, lift_run_ok, Prod.mk.injEq] at h
    obtain ⟨u, c₁, hSubject, _, _, ⟨variants, hVariants, rfl, rfl⟩, out, c₂, hArms, -⟩ := h
    simp only [exprMoves, follow_ok hSubject, hVariants]
    exact (inferType_accepted Γ subject hSubject).append
      (inferArms_accepted Γ u.name variants arms hArms)

theorem inferArguments_accepted (Γ : Context) : ∀ (arguments : List Expr) {parameters : List Ty}
    {nullAllowed : Bool} {c c' : Checker},
    inferArguments Γ nullAllowed arguments parameters c = .ok ((), c') →
    AllAccepted (argumentMoves Γ arguments parameters c)
  | [], _, _, _, _, _ => by simpa only [argumentMoves] using AllAccepted.nil
  | _ :: _, [], _, _, _, _ => by simpa only [argumentMoves] using AllAccepted.nil
  | argument :: arguments, parameter :: parameters, nullAllowed, c, c', h => by
    simp only [inferArguments, bind_run_ok, lift_run_ok, Prod.mk.injEq] at h
    obtain ⟨t, c₁, hArgument, _, _, ⟨_, hRequire, -, rfl⟩, hRest⟩ := h
    simp only [argumentMoves, follow_ok hArgument]
    exact (inferType_accepted Γ argument hArgument).append
      ((inferArguments_accepted Γ arguments hRest).cons hRequire)

theorem inferArms_accepted (Γ : Context) (typeName : String) (variants : List (Name × Option Ty)) :
    ∀ (arms : List (Pattern × Expr)) {covered : List Nat} {result : Option Ty}
      {seenDefault : Bool} {out : List Nat × Option Ty × Bool} {c c' : Checker},
      inferArms Γ typeName variants arms covered result seenDefault c = .ok (out, c') →
      AllAccepted (armMoves Γ typeName variants arms covered c)
  | [], _, _, _, _, _, _, _ => AllAccepted.nil
  | (pattern, body) :: arms, covered, result, seenDefault, out, c, c', h => by
    obtain ⟨_, _, hLift, h⟩ := bind_run_ok.1 h
    obtain ⟨⟨covered', binding⟩, hPattern, hEq⟩ := lift_run_ok.1 hLift
    cases hEq
    obtain ⟨t, c₁, hBody, h⟩ := bind_run_ok.1 h
    obtain ⟨c₂, hInner⟩ := withBinding_run hBody
    simp only [armMoves, hPattern, follow_ok hBody]
    refine (inferType_accepted Γ body hInner).append ?_
    split at h
    · exact inferArms_accepted Γ typeName variants arms h
    · split at h
      · exact inferArms_accepted Γ typeName variants arms h
      · cases throw_run_ok.1 h

end

theorem checkCondition_infers (h : checkCondition Γ e c = .ok ((), c')) :
    ∃ t c₁, inferType Γ e c = .ok (t, c₁) := by
  obtain ⟨t, c₁, hInfer, -⟩ := bind_run_ok.1 h
  exact ⟨t, c₁, hInfer⟩

theorem checkCondition_accepted (h : checkCondition Γ e c = .ok ((), c')) :
    AllAccepted (exprMoves Γ e c) := by
  obtain ⟨t, c₁, hInfer⟩ := checkCondition_infers h
  exact inferType_accepted Γ e hInfer

variable {x : Name} {initializer : Option Expr} {typeName : Option String}

theorem declaredType_accepted {annotated : Option Ty} {c₁ c₂ : Checker}
    (hAnnotated : resolveAnnotated Γ typeName c = .ok (annotated, c₁))
    (hType : declaredType Γ x annotated initializer c₁ = .ok (t, c₂)) :
    AllAccepted (declarationMoves Γ typeName initializer c) := by
  cases initializer with
  | none => exact AllAccepted.nil
  | some e =>
    obtain ⟨u, c₃, hInfer, hType⟩ := bind_run_ok.1 hType
    simp only [declarationMoves, follow_ok hAnnotated, follow_ok hInfer]
    refine (inferType_accepted Γ e hInfer).append ?_
    cases annotated with
    | none =>
      have hSame : requireAssignable false u u e = .ok () :=
        requireAssignable_ok.2 (.inr (by
          simp [Ty.typesEqual_of_sameType (Ty.sameType_refl u)]))
      exact AllAccepted.nil.cons hSame
    | some dest =>
      simp only [bind_run_ok, lift_run_ok] at hType
      obtain ⟨_, _, ⟨_, hRequire, -⟩, -⟩ := hType
      exact AllAccepted.nil.cons hRequire

theorem processVarDeclaration_accepted
    (h : processVarDeclaration Γ x typeName initializer c = .ok ((), c')) :
    AllAccepted (declarationMoves Γ typeName initializer c) := by
  simp only [processVarDeclaration, bind_run_ok] at h
  obtain ⟨annotated, c₁, hAnnotated, t, c₂, hType, -⟩ := h
  exact declaredType_accepted hAnnotated hType

theorem processAssignment_accepted (h : processAssignment Γ x value c = .ok ((), c')) :
    AllAccepted (assignmentMoves Γ false x value c) := by
  obtain ⟨_, _, hGet, h⟩ := bind_run_ok.1 h
  cases get_run_ok.1 hGet
  rcases hLookup : Γ.lookup c x with _ | ⟨symbol, isLocal⟩
  · rw [hLookup] at h
    cases throw_run_ok.1 h
  rw [hLookup] at h
  cases symbol with
  | var t b =>
    simp only [bind_run_ok, lift_run_ok] at h
    obtain ⟨u, c₁, hInfer, _, _, ⟨_, hRequire, -⟩, -⟩ := h
    simp only [assignmentMoves, follow_ok hInfer, variableType, hLookup]
    exact (inferType_accepted Γ value hInfer).append (AllAccepted.nil.cons hRequire)
  | typeSymbol type => cases type <;> cases throw_run_ok.1 h
  | _ => cases throw_run_ok.1 h

theorem inferTarget_accepted {target : Expr} (h : inferTarget Γ target c = .ok (t, c')) :
    AllAccepted (exprMoves Γ target c) := by
  unfold inferTarget at h
  split at h
  · obtain ⟨u, c₁, hInfer, -⟩ := bind_run_ok.1 h
    simp only [exprMoves]
    exact inferType_accepted Γ _ hInfer
  · exact inferType_accepted Γ _ h
  · exact inferType_accepted Γ _ h
  · cases throw_run_ok.1 h

theorem processTargetAssignment_accepted {target : Expr}
    (h : processTargetAssignment Γ target value c = .ok ((), c')) :
    AllAccepted (targetAssignmentMoves Γ target value c) := by
  simp only [processTargetAssignment, bind_run_ok, lift_run_ok] at h
  obtain ⟨t, c₁, hTarget, u, c₂, hInfer, _, hRequire, -⟩ := h
  simp only [targetAssignmentMoves, follow_ok hTarget, follow_ok hInfer]
  exact (inferTarget_accepted hTarget).append
    ((inferType_accepted Γ value hInfer).append (AllAccepted.nil.cons hRequire))

theorem checkForInitializer_accepted {initializer : Option Stmt}
    (h : checkForInitializer Γ initializer c = .ok ((), c')) :
    AllAccepted (initializerMoves Γ initializer c) := by
  unfold checkForInitializer at h
  split at h
  · exact AllAccepted.nil
  · exact processVarDeclaration_accepted h
  · exact processAssignment_accepted h
  · exact processTargetAssignment_accepted h
  · obtain ⟨t, c₁, hInfer, -⟩ := bind_run_ok.1 h
    exact inferType_accepted Γ _ hInfer
  · cases throw_run_ok.1 h

theorem AllAccepted.unchecked {moves : List Move} (h : ∀ m ∈ moves, m.inIncrement = true) :
    AllAccepted moves := by
  intro m hm hFalse
  rw [h m hm] at hFalse
  cases hFalse

theorem checkForIncrement_accepted {increment : Option Stmt}
    (h : checkForIncrement Γ increment c = .ok ((), c')) :
    AllAccepted (incrementMoves Γ increment c) := by
  unfold checkForIncrement at h
  split at h
  · exact AllAccepted.nil
  · obtain ⟨t, c₁, hInfer, -⟩ := bind_run_ok.1 h
    simp only [incrementMoves, assignmentMoves, follow_ok hInfer]
    exact (inferType_accepted Γ _ hInfer).append (AllAccepted.unchecked (by simp))
  · obtain ⟨t, c₁, hInfer, -⟩ := bind_run_ok.1 h
    simp only [incrementMoves, incrementTargetMoves, follow_ok hInfer]
    have hTarget : ∀ l : List Move,
        AllAccepted (l.map fun m => { m with inIncrement := true }) := by
      intro l
      refine AllAccepted.unchecked fun m hm => ?_
      obtain ⟨m', -, rfl⟩ := List.mem_map.1 hm
      rfl
    exact ((hTarget _).append (inferType_accepted Γ _ hInfer)).append (AllAccepted.unchecked (by simp))
  · obtain ⟨t, c₁, hInfer, -⟩ := bind_run_ok.1 h
    exact inferType_accepted Γ _ hInfer
  · cases throw_run_ok.1 h

theorem checkForCondition_accepted {condition : Option Expr}
    (h : checkForCondition Γ condition c = .ok ((), c')) :
    AllAccepted (optionalMoves Γ condition c) := by
  cases condition with
  | none => exact AllAccepted.nil
  | some e => exact checkCondition_accepted h

theorem restored_run {m : Check Unit} {snapshot : List Bool} {c₁ c₂ : Checker}
    (h : m c = .ok ((), c₁)) (hRestore : restoreSnapshot snapshot c₁ = .ok ((), c₂)) :
    (do m; restoreSnapshot snapshot) c = .ok ((), c₂) :=
  bind_run_ok.2 ⟨(), c₁, h, hRestore⟩

mutual

/-- **Statements.** -/
theorem checkStatement_accepted (Γ : Context) : ∀ (s : Stmt) {c c' : Checker},
    checkStatement Γ s c = .ok ((), c') → AllAccepted (statementMoves Γ s c)
  | .varDeclaration x typeName e, c, c', h => by
    exact processVarDeclaration_accepted h
  | .assignment x e, c, c', h => by
    exact processAssignment_accepted h
  | .targetAssignment target e, c, c', h => by
    exact processTargetAssignment_accepted h
  | .expression e, c, c', h => by
    simp only [checkStatement, checkExpressionStatement] at h
    split at h
    · obtain ⟨t, c₁, hInfer, -⟩ := bind_run_ok.1 h
      exact inferType_accepted Γ _ hInfer
    · obtain ⟨t, c₁, hInfer, -⟩ := bind_run_ok.1 h
      exact inferType_accepted Γ _ hInfer
    · obtain ⟨t, c₁, hInfer, -⟩ := bind_run_ok.1 h
      exact inferType_accepted Γ _ hInfer
    · cases throw_run_ok.1 h
  | .returnStatement none, _, _, _ => AllAccepted.nil
  | .returnStatement (some e), c, c', h => by
    simp only [checkStatement, bind_run_ok, lift_run_ok] at h
    obtain ⟨t, c₁, hInfer, _, hRequire, -⟩ := h
    simp only [statementMoves, follow_ok hInfer]
    exact (inferType_accepted Γ e hInfer).append (AllAccepted.nil.cons hRequire)
  | .ifStatement condition thenBranch elseIfs elseBranch, c, c', h => by
    simp only [checkStatement, bind_run_ok, get_run_ok, Prod.mk.injEq] at h
    obtain ⟨_, c₀, hCond, _, _, ⟨rfl, rfl⟩, _, c₁, hThen, _, c₂, hRestore, _, c₃, hClauses, _, c₄,
      hElse, -⟩ := h
    have hBranch := restored_run hThen hRestore
    simp only [statementMoves, follow_ok hCond, follow_ok hBranch, follow_ok hClauses]
    exact (checkCondition_accepted hCond).append ((checkStatement_accepted Γ thenBranch hThen).append
      ((checkElseIfs_accepted Γ elseIfs hClauses).append (checkElse_accepted Γ elseBranch hElse)))
  | .whileStatement label condition body, c, c', h => by
    simp only [checkStatement, bind_run_ok, get_run_ok, modify_run_ok, Prod.mk.injEq] at h
    obtain ⟨_, c₀, hCond, _, _, ⟨rfl, rfl⟩, _, _, ⟨-, rfl⟩, _, c₁, hBody, -⟩ := h
    simp only [statementMoves, follow_ok hCond]
    exact (checkCondition_accepted hCond).append (checkStatement_accepted Γ body hBody)
  | .forStatement label initializer condition increment body, c, c', h => by
    simp only [checkStatement, bind_run_ok, get_run_ok, modify_run_ok, Prod.mk.injEq] at h
    obtain ⟨_, _, ⟨-, rfl⟩, _, c₀, hInit, _, _, ⟨rfl, rfl⟩, _, c₁, hCond, _, c₂, hStep, _, _,
      ⟨-, rfl⟩, _, c₃, hBody, -⟩ := h
    simp only [statementMoves, follow_ok hInit, follow_ok hCond, follow_ok hStep]
    exact (checkForInitializer_accepted hInit).append ((checkForCondition_accepted hCond).append
      ((checkForIncrement_accepted hStep).append (checkStatement_accepted Γ body hBody)))
  | .switchStatement e cases, c, c', h => by
    obtain ⟨t, c₀, hInfer, h⟩ := bind_run_ok.1 h
    split at h
    · cases throw_run_ok.1 h
    simp only [bind_run_ok, get_run_ok, modify_run_ok, Prod.mk.injEq] at h
    obtain ⟨_, _, ⟨rfl, rfl⟩, _, _, ⟨-, rfl⟩, out, c₁, hCases, -⟩ := h
    simp only [statementMoves, follow_ok hInfer]
    exact (inferType_accepted Γ e hInfer).append (checkCases_accepted Γ t _ cases hCases)
  | .matchStatement e arms, c, c', h => by
    simp only [checkStatement, bind_run_ok, lift_run_ok, Prod.mk.injEq] at h
    obtain ⟨t, c₀, hInfer, _, _, ⟨variants, hVariants, rfl, rfl⟩, out, c₁, hArms, -⟩ := h
    simp only [statementMoves, follow_ok hInfer, hVariants]
    exact (inferType_accepted Γ e hInfer).append (checkArms_accepted Γ t.name variants arms hArms)
  | .deferStatement s, c, c', h => by
    simp only [checkStatement] at h
    split at h
    · exact checkStatement_accepted Γ s h
    · cases throw_run_ok.1 h
  | .errdeferStatement s, c, c', h => by
    simp only [checkStatement] at h
    split at h
    · exact checkStatement_accepted Γ s h
    · cases throw_run_ok.1 h
  | .block statements, c, c', h => by
    simp only [checkStatement, bind_run_ok, modify_run_ok, Prod.mk.injEq] at h
    obtain ⟨_, _, ⟨-, rfl⟩, _, c₁, hStatements, -⟩ := h
    exact checkStatements_accepted Γ statements hStatements
  | .breakStatement _, _, _, _ => AllAccepted.nil
  | .continueStatement _, _, _, _ => AllAccepted.nil
  | .inlineAsm _, _, _, _ => AllAccepted.nil

theorem checkStatements_accepted (Γ : Context) : ∀ (l : List Stmt) {c c' : Checker},
    checkStatements Γ l c = .ok ((), c') → AllAccepted (statementsMoves Γ l c)
  | [], _, _, _ => AllAccepted.nil
  | s :: rest, c, c', h => by
    simp only [checkStatements, bind_run_ok] at h
    obtain ⟨_, c₁, hFirst, hRest⟩ := h
    simp only [statementsMoves, follow_ok hFirst]
    exact (checkStatement_accepted Γ s hFirst).append (checkStatements_accepted Γ rest hRest)

theorem checkElseIfs_accepted (Γ : Context) : ∀ (l : List (Expr × Stmt)) {snapshot : List Bool}
    {c c' : Checker}, checkElseIfs Γ snapshot l c = .ok ((), c') →
    AllAccepted (elseIfMoves Γ snapshot l c)
  | [], _, _, _, _ => AllAccepted.nil
  | (condition, body) :: rest, snapshot, c, c', h => by
    simp only [checkElseIfs, bind_run_ok] at h
    obtain ⟨_, c₀, hCond, _, c₁, hBody, _, c₂, hRestore, hRest⟩ := h
    have hBranch := restored_run hBody hRestore
    simp only [elseIfMoves, follow_ok hCond, follow_ok hBranch]
    exact (checkCondition_accepted hCond).append ((checkStatement_accepted Γ body hBody).append
      (checkElseIfs_accepted Γ rest hRest))

theorem checkElse_accepted (Γ : Context) : ∀ (s : Option Stmt) {c c' : Checker},
    checkElse Γ s c = .ok ((), c') → AllAccepted (elseMoves Γ s c)
  | none, _, _, _ => AllAccepted.nil
  | some s, _, _, h => checkStatement_accepted Γ s h

theorem checkCases_accepted (Γ : Context) (switchType : Ty) (snapshot : List Bool) :
    ∀ (l : List (Option Expr × List Stmt)) {values : List Int} {seenDefault : Bool}
      {out : List Int × Bool} {c c' : Checker},
      checkCases Γ switchType snapshot l values seenDefault c = .ok (out, c') →
      AllAccepted (caseMoves Γ switchType snapshot l values c)
  | [], _, _, _, _, _, _ => AllAccepted.nil
  | (none, body) :: cases, values, seenDefault, out, c, c', h => by
    simp only [checkCases] at h
    split at h
    · cases throw_run_ok.1 h
    simp only [bind_run_ok, modify_run_ok, Prod.mk.injEq] at h
    obtain ⟨_, _, ⟨-, rfl⟩, _, c₁, hBody, _, _, ⟨-, rfl⟩, _, c₂, hRestore, hRest⟩ := h
    have hBranch := restored_run (checkBlock_run hBody) hRestore
    simp only [caseMoves, follow_ok hBranch]
    exact (checkStatements_accepted Γ body hBody).append
      (checkCases_accepted Γ switchType snapshot cases hRest)
  | (some e, body) :: cases, values, seenDefault, out, c, c', h => by
    simp only [checkCases, bind_run_ok, modify_run_ok, Prod.mk.injEq] at h
    obtain ⟨values', c₀, hValue, _, _, ⟨-, rfl⟩, _, c₁, hBody, _, _, ⟨-, rfl⟩, _, c₂, hRestore,
      hRest⟩ := h
    have hBranch := restored_run (checkBlock_run hBody) hRestore
    obtain ⟨t, c₃, hInfer, -⟩ := bind_run_ok.1 hValue
    simp only [caseMoves, follow_ok hValue, follow_ok hBranch]
    exact (inferType_accepted Γ e hInfer).append ((checkStatements_accepted Γ body hBody).append
      (checkCases_accepted Γ switchType snapshot cases hRest))

theorem checkArms_accepted (Γ : Context) (typeName : String) (variants : List (Name × Option Ty)) :
    ∀ (arms : List (Pattern × List Stmt)) {covered : List Nat} {seenDefault : Bool}
      {out : List Nat × Bool} {c c' : Checker},
      checkArms Γ typeName variants arms covered seenDefault c = .ok (out, c') →
      AllAccepted (matchMoves Γ typeName variants arms covered c)
  | [], _, _, _, _, _, _ => AllAccepted.nil
  | (pattern, body) :: arms, covered, seenDefault, out, c, c', h => by
    obtain ⟨_, _, hLift, h⟩ := bind_run_ok.1 h
    obtain ⟨⟨covered', binding⟩, hPattern, hEq⟩ := lift_run_ok.1 hLift
    cases hEq
    obtain ⟨_, c₁, hBody, hRest⟩ := bind_run_ok.1 h
    obtain ⟨c₂, hInner⟩ := withBinding_run hBody
    simp only [bind_run_ok, modify_run_ok, Prod.mk.injEq] at hInner
    obtain ⟨_, _, ⟨-, rfl⟩, _, c₃, hStatements, -⟩ := hInner
    have hArm : withBinding binding (checkBlock Γ body) c = .ok ((), c₁) := hBody
    simp only [matchMoves, hPattern, follow_ok hArm]
    exact (checkStatements_accepted Γ body hStatements).append
      (checkArms_accepted Γ typeName variants arms hRest)

end

-- ---
-- Programs
-- ---

theorem bind_ok {ε α β : Type} {x : Except ε α} {f : α → Except ε β} {b : β}
    (h : (x >>= f) = .ok b) : ∃ a, x = .ok a ∧ f a = .ok b := by
  cases x with
  | error e => cases h
  | ok a => exact ⟨a, rfl, h⟩

theorem checkFunctionBody_accepted {parameters : List (Name × Ty)} {body : Stmt}
    (h : checkFunctionBody Γ parameters body = .ok c) :
    AllAccepted (statementMoves Γ body (functionEntry parameters)) := by
  unfold checkFunctionBody at h
  split at h
  · cases hBody : checkStatement Γ body (functionEntry parameters) with
    | error e =>
      rw [hBody] at h
      cases h
    | ok p =>
      exact checkStatement_accepted Γ body hBody
  · cases h

theorem processDeclaration_accepted {top top' : Top} {d : Declaration}
    (h : processDeclaration top d = .ok top') : AllAccepted (topMoves top d) := by
  cases d with
  | varDeclaration x typeName initializer isExtern linkName =>
    obtain ⟨⟨isNew, c⟩, hRun, -⟩ := bind_ok h
    simp only [processGlobalVariable, bind_run_ok, lift_run_ok, Prod.mk.injEq] at hRun
    obtain ⟨_, _, ⟨_, -, -, rfl⟩, annotated, c₁, hAnnotated, t, c₂, hType, -⟩ := hRun
    exact declaredType_accepted hAnnotated hType
  | functionDeclaration f parameters returnType body =>
    cases body with
    | none => exact AllAccepted.nil
    | some body =>
      obtain ⟨⟨types, r⟩, hSignature, h⟩ := bind_ok h
      obtain ⟨c, hBody, -⟩ := bind_ok h
      simp only [topMoves, hSignature]
      exact checkFunctionBody_accepted hBody
  | assignment x value =>
    obtain ⟨⟨_, c⟩, hRun, -⟩ := bind_ok h
    exact processAssignment_accepted hRun
  | targetAssignment target value =>
    obtain ⟨⟨_, c⟩, hRun, -⟩ := bind_ok h
    exact processTargetAssignment_accepted hRun
  | staticAssert arguments => exact AllAccepted.nil
  | inlineAsm code => exact AllAccepted.nil

/-- **Programs.** -/
theorem checkProgram_accepted {program : List Declaration} : ∀ {top top' : Top},
    checkProgram top program = .ok top' → AllAccepted (programMoves top program) := by
  induction program with
  | nil => exact fun _ => AllAccepted.nil
  | cons d rest ih =>
    intro top top' h
    obtain ⟨top₁, hFirst, hRest⟩ := bind_ok h
    simp only [programMoves, hFirst]
    exact (processDeclaration_accepted hFirst).append (ih hRest)

def StoresWellTyped (top : Top) (program : List Declaration) : Prop :=
  ∀ m ∈ programMoves top program, m.WellTyped

/-- Two enums that share their constructors. A constructor is looked up by its name, which
finds the one of the enum that was declared first. -/
def resultTop : Top where
  context := {
    globals := [("DbOpenResult", .typeSymbol (.taggedEnum "DbOpenResult")),
      ("Ok", .constructor (.taggedEnum "DbOpenResult") (some .int32)),
      ("Err", .constructor (.taggedEnum "DbOpenResult") (some .int32)),
      ("DbExecResult", .typeSymbol (.taggedEnum "DbExecResult"))]
    typeNamed := fun t =>
      if t = "int32" then some (.int32, [])
      else if t = "DbOpenResult" then some (.taggedEnum "DbOpenResult", [])
      else if t = "DbExecResult" then some (.taggedEnum "DbExecResult", [])
      else none
    hides := fun _ _ => false
    typeSize := fun _ => 8
    structFields := fun _ => []
    taggedVariants := fun _ => [("Ok", some .int32), ("Err", some .int32)]
    returnType := .void }
  forward := []
  externs := []

/-- `function f() { var x: … = Ok(1); }` -/
def storedResult (typeName : String) : List Declaration :=
  [.functionDeclaration "f" [] .void (some (.block [
    .varDeclaration "x" (some typeName) (some (.functionCall "Ok" [.numberLiteral 1 10]))]))]

end Mettle.Semantic
