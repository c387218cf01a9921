import Mettle.Codegen.ConstantFold
import Mettle.IR.Lowering
import Mettle.Lib.StateExcept

/-!
# Mettle — constant expressions at compile time and at run time

`type_checker_eval_integer_constant_with_checker` computes in `long long` and looks at no
type. Neither does the compiled program: `ir_lower_expression` turns literals, constants and
sizes into integer operands, `&&` and `||` into branches, and every other operator into an
instruction whose code works on words of 64 bits.

The two values agree wherever what the evaluator computes has a meaning in C. It divides
without the guard that the folder of `ir_optimize.c` has, and it adds, subtracts, multiplies and
negates signed numbers.
-/

namespace Mettle.Semantic

open Mettle.Parser Mettle.Lib Option
open Mettle.Codegen (IntegerOp IsLongLong Word)

-- ---
-- Constant expressions
-- ---

/-- An expression and all that it is computed from. -/
def parts : Expr → List Expr
  | .unaryExpression op e => .unaryExpression op e :: parts e
  | .binaryExpression l op r => .binaryExpression l op r :: (parts l ++ parts r)
  | e => [e]

/-- The operator of the instruction for a binary expression; `&&` and `||` have none. -/
def instructionOp : BinaryOp → Option IntegerOp
  | .add => some .add
  | .sub => some .sub
  | .mul => some .mul
  | .div => some .div
  | .mod => some .mod
  | .bitAnd => some .and
  | .bitOr => some .or
  | .bitXor => some .xor
  | .shl => some .shl
  | .shr => some .shr
  | .eq => some .eq
  | .ne => some .ne
  | .lt => some .lt
  | .le => some .le
  | .gt => some .gt
  | .ge => some .ge
  | .logicalAnd | .logicalOr => none

variable {op : BinaryOp} {operation : IntegerOp}

/-- What the branches of `&&` and `||` assign for their right operand. -/
def truthWord (w : Word) : Word := if w = 0 then 0 else 1

section

variable (constants : Name → Option Int) (typeSize : String → Option Nat)

/-- `type_checker_eval_integer_constant_with_checker`, with the constants in scope. -/
def compileTimeValue : Expr → Option Int := evalIntegerConstantWith constants typeSize

/-- The word that the code of a constant expression leaves; `none` if it traps. -/
def runTimeWord : Expr → Option Word
  | .numberLiteral value _ => some (BitVec.ofInt 64 value)
  | .identifier x => (constants x).map (BitVec.ofInt 64)
  | .functionCall "sizeof" [.identifier t] =>
    (sizeofConstant typeSize t).map (BitVec.ofInt 64)
  | .methodCall _ "sizeof" [.identifier t] =>
    (sizeofConstant typeSize t).map (BitVec.ofInt 64)
  | .unaryExpression op e => (runTimeWord e).bind (Codegen.unaryWord (IR.unaryText op))
  | .binaryExpression l .logicalAnd r =>
    (runTimeWord l).bind fun left =>
      if left = 0 then some 0 else (runTimeWord r).map truthWord
  | .binaryExpression l .logicalOr r =>
    (runTimeWord l).bind fun left =>
      if left = 0 then (runTimeWord r).map truthWord else some 1
  | .binaryExpression l op r =>
    (runTimeWord l).bind fun left => (runTimeWord r).bind fun right =>
      (instructionOp op).bind fun operation => Codegen.resultWord operation 8 left right
  | _ => none

-- ---
-- The host
-- ---

/-- A binary operator on two values of `long long` that C defines. -/
def HostDefined (op : BinaryOp) (left right : Int) : Prop :=
  match op with
  | .add => IsLongLong (left + right)
  | .sub => IsLongLong (left - right)
  | .mul => IsLongLong (left * right)
  -- A zero on the right is tested first.
  | .div | .mod => ¬ (left = -2 ^ 63 ∧ right = -1)
  | _ => True

/-- The operator of an expression is defined in C on the values of its operands. -/
def NodeDefined (value : Expr → Option Int) : Expr → Prop
  | .unaryExpression .minus e => ∀ v, value e = some v → IsLongLong (-v)
  | .binaryExpression l op r =>
    ∀ left right, value l = some left → value r = some right → HostDefined op left right
  | _ => True

/-- What the evaluator computes for the expression itself, once its operands have
values, is defined in C. -/
def HostSafe : Expr → Prop := NodeDefined (compileTimeValue constants typeSize)

/-- The value at compile time is the signed value of the word at run time, and the host
computes it. -/
def ValueKept (e : Expr) : Prop :=
  (∀ v, compileTimeValue constants typeSize e = some v →
    (runTimeWord constants typeSize e).map BitVec.toInt = some v) ∧ HostSafe constants typeSize e

-- ---
-- When they agree
-- ---

/-- A binary operator on unbounded integers. -/
def exactBinary (op : BinaryOp) (left right : Int) : Option Int :=
  match op with
  | .add => some (left + right)
  | .sub => some (left - right)
  | .mul => some (left * right)
  | .div => if right = 0 then none else some (left.tdiv right)
  | .mod => if right = 0 then none else some (left.tmod right)
  | op => evalBinaryConstant op left right

/-- The value of a constant expression in unbounded integers. -/
def exactValue : Expr → Option Int
  | .numberLiteral value _ => some value
  | .identifier x => constants x
  | .functionCall "sizeof" [.identifier t] => sizeofConstant typeSize t
  | .methodCall _ "sizeof" [.identifier t] => sizeofConstant typeSize t
  | .unaryExpression .plus e => exactValue e
  | .unaryExpression .minus e => (exactValue e).map fun v => -v
  | .binaryExpression l op r =>
    (exactValue l).bind fun left => (exactValue r).bind fun right => exactBinary op left right
  | _ => none

/-- A literal or a named constant is a `long long`. -/
def LeafFits : Expr → Prop
  | .numberLiteral value _ => IsLongLong value
  | .identifier x => ∀ v, constants x = some v → IsLongLong v
  | _ => True

/-- Nothing that the expression itself computes in unbounded integers leaves `long long`. -/
def FitsLongLong (e : Expr) : Prop :=
  LeafFits constants e ∧ NodeDefined (exactValue constants typeSize) e

end

-- ---
-- One operator
-- ---

section

variable {a b v : Int}

theorem toInt_ofInt_of_isLongLong (h : IsLongLong v) : (BitVec.ofInt 64 v : Word).toInt = v := by
  obtain ⟨hLow, hHigh⟩ := h
  exact BitVec.toInt_ofInt_eq_self (w := 64) (by decide) hLow hHigh

theorem isLongLong_toInt (w : Word) : IsLongLong w.toInt :=
  ⟨BitVec.le_toInt w, BitVec.toInt_lt⟩

theorem wrapLongLong_eq_toInt (v : Int) :
    wrapLongLong v = (BitVec.ofInt 64 v : Word).toInt := (BitVec.toInt_ofInt v).symm

theorem wrapLongLong_of_isLongLong (h : IsLongLong v) : wrapLongLong v = v :=
  (wrapLongLong_eq_toInt v).trans (toInt_ofInt_of_isLongLong h)

theorem isLongLong_tdiv (ha : IsLongLong a) (hMin : ¬ (a = -2 ^ 63 ∧ b = -1)) :
    IsLongLong (a.tdiv b) := by
  have hAbs : (a.tdiv b).natAbs = a.natAbs / b.natAbs := Int.natAbs_tdiv a b
  unfold IsLongLong at *
  rcases Nat.lt_or_ge b.natAbs 2 with hSmall | hLarge
  · have hCases : b = 0 ∨ b = 1 ∨ b = -1 := by omega
    rcases hCases with rfl | rfl | rfl
    · rw [Int.tdiv_zero]
      omega
    · rw [Int.tdiv_one]
      exact ha
    · rw [Int.tdiv_neg, Int.tdiv_one]
      omega
  · have hHalf : a.natAbs / b.natAbs ≤ a.natAbs / 2 := Nat.div_le_div_left hLarge (by decide)
    omega

theorem isLongLong_tmod (ha : IsLongLong a) : IsLongLong (a.tmod b) := by
  have hAbs : (a.tmod b).natAbs ≤ a.natAbs := by
    rw [Int.natAbs_tmod]
    exact Nat.mod_le _ _
  unfold IsLongLong at *
  rcases Int.lt_or_le a 0 with hNegative | hPositive
  · have hNeg : a.tmod b = -((-a).tmod b) := by rw [Int.neg_tmod, neg_neg]
    have : 0 ≤ (-a).tmod b := Int.tmod_nonneg _ (by omega)
    omega
  · have : 0 ≤ a.tmod b := Int.tmod_nonneg _ hPositive
    omega

theorem isLongLong_truth (p : Prop) [Decidable p] : IsLongLong (if p then 1 else 0) := by
  split_ifs <;> exact ⟨by decide, by decide⟩

/-- In range, the evaluator of the checker and the folder of the optimizer compute the same. -/
theorem evaluate_of_evalBinaryConstant (ha : IsLongLong a) (hHost : HostDefined op a b)
    (hOp : instructionOp op = some operation) (hValue : evalBinaryConstant op a b = some v) :
    Codegen.irTryEvaluateIntegerBinary operation.text a b = .value v := by
  have hWord : ∀ {x : Int}, some (wrapLongLong x) = some v →
      Codegen.Evaluated.value (BitVec.ofInt 64 x : Word).toInt = .value v := by
    intro x hx
    rw [← wrapLongLong_eq_toInt, some.inj hx]
  have hTruth : ∀ {p : Prop} [Decidable p] {holds : Bool}, (p ↔ holds = true) →
      some (if p then 1 else 0 : Int) = some v →
      Codegen.Evaluated.ofBool holds = .value v := by
    intro p _ holds hHolds hp
    rw [← some.inj hp, Codegen.Evaluated.ofBool]
    simp only [hHolds]
  cases op with
  | add =>
    cases hOp
    refine Eq.trans ?_ (hWord hValue)
    rw [BitVec.ofInt_add]
    rfl
  | sub =>
    cases hOp
    refine Eq.trans ?_ (hWord hValue)
    rw [Int.sub_eq_add_neg, BitVec.ofInt_add, BitVec.ofInt_neg, ← BitVec.sub_eq_add_neg]
    rfl
  | mul =>
    cases hOp
    refine Eq.trans ?_ (hWord hValue)
    rw [BitVec.ofInt_mul]
    rfl
  | div =>
    cases hOp
    simp only [evalBinaryConstant] at hValue
    split_ifs at hValue with hZero
    have hGuard : ¬ (b = 0 ∨ (a = Codegen.LLONG_MIN ∧ b = -1)) := not_or.mpr ⟨hZero, hHost⟩
    rw [wrapLongLong_of_isLongLong (isLongLong_tdiv ha hHost)] at hValue
    show (if b = 0 ∨ (a = Codegen.LLONG_MIN ∧ b = -1) then Codegen.Evaluated.left
      else .ofC (Codegen.cDivide a b)) = _
    rw [if_neg hGuard, Codegen.cDivide, if_neg hGuard, hValue]
    rfl
  | mod =>
    cases hOp
    simp only [evalBinaryConstant] at hValue
    split_ifs at hValue with hZero
    have hGuard : ¬ (b = 0 ∨ (a = Codegen.LLONG_MIN ∧ b = -1)) := not_or.mpr ⟨hZero, hHost⟩
    show (if b = 0 ∨ (a = Codegen.LLONG_MIN ∧ b = -1) then Codegen.Evaluated.left
      else .ofC (Codegen.cRemainder a b)) = _
    rw [if_neg hGuard, Codegen.cRemainder, if_neg hGuard, hValue]
    rfl
  | eq =>
    cases hOp
    exact hTruth (beq_iff_eq).symm hValue
  | ne =>
    cases hOp
    refine hTruth (p := ¬ a = b) (bne_iff_ne).symm ?_
    rw [← hValue, ite_not]
    rfl
  | lt =>
    cases hOp
    exact hTruth (decide_eq_true_iff).symm hValue
  | le =>
    cases hOp
    exact hTruth (decide_eq_true_iff).symm hValue
  | gt =>
    cases hOp
    exact hTruth (decide_eq_true_iff).symm hValue
  | ge =>
    cases hOp
    exact hTruth (decide_eq_true_iff).symm hValue
  | logicalAnd | logicalOr => cases hOp
  | bitAnd | bitOr | bitXor | shl | shr => cases hValue

/-- The code of an operator leaves the value that the evaluator computes. -/
theorem resultWord_of_evalBinaryConstant (ha : IsLongLong a) (hb : IsLongLong b)
    (hHost : HostDefined op a b) (hOp : instructionOp op = some operation)
    (hValue : evalBinaryConstant op a b = some v) :
    Codegen.resultWord operation 8 (BitVec.ofInt 64 a) (BitVec.ofInt 64 b) =
      some (BitVec.ofInt 64 v) :=
  (@Codegen.evaluate_word_iff _ _ (.arith operation) _ ha hb
    (evaluate_of_evalBinaryConstant ha hHost hOp hValue)).mpr fun h => by cases h.1

theorem operator_exact (ha : IsLongLong a) (hHost : HostDefined op a b) :
    evalBinaryConstant op a b = exactBinary op a b ∧
      ∀ v, exactBinary op a b = some v → IsLongLong v := by
  have hTruth : ∀ (p : Prop) [Decidable p] (v : Int), some (if p then 1 else 0 : Int) = some v →
      IsLongLong v := by
    intro p _ v hv
    exact some.inj hv ▸ isLongLong_truth p
  have hArithmetic : ∀ v, IsLongLong v → some (wrapLongLong v) = some v ∧
      ∀ w, some v = some w → IsLongLong w := by
    intro v hv
    refine ⟨congrArg some (wrapLongLong_of_isLongLong hv), ?_⟩
    intro w hw
    exact some.inj hw ▸ hv
  cases op with
  | add => exact hArithmetic _ hHost
  | sub => exact hArithmetic _ hHost
  | mul => exact hArithmetic _ hHost
  | div =>
    have hQuotient := isLongLong_tdiv ha hHost
    simp only [evalBinaryConstant, exactBinary, wrapLongLong_of_isLongLong hQuotient, true_and]
    intro v hv
    split_ifs at hv
    exact some.inj hv ▸ hQuotient
  | mod =>
    refine ⟨rfl, fun v hv => ?_⟩
    simp only [exactBinary] at hv
    split_ifs at hv
    exact some.inj hv ▸ isLongLong_tmod ha
  | eq => exact ⟨rfl, hTruth _⟩
  | ne =>
    refine ⟨rfl, fun v hv => hTruth (¬ a = b) v ?_⟩
    rw [ite_not]
    exact hv
  | lt => exact ⟨rfl, hTruth _⟩
  | le => exact ⟨rfl, hTruth _⟩
  | gt => exact ⟨rfl, hTruth _⟩
  | ge => exact ⟨rfl, hTruth _⟩
  | logicalAnd => exact ⟨rfl, hTruth _⟩
  | logicalOr => exact ⟨rfl, hTruth _⟩
  | bitAnd | bitOr | bitXor | shl | shr => exact ⟨rfl, fun v hv => by cases hv⟩

theorem truthWord_ofInt (hb : IsLongLong b) :
    truthWord (BitVec.ofInt 64 b) = BitVec.ofInt 64 (if b = 0 then 0 else 1) := by
  unfold truthWord
  by_cases hZero : b = 0
  · rw [if_pos ((Codegen.ofInt_eq_zero_iff hb).mpr hZero), if_pos hZero]
    rfl
  · rw [if_neg fun h => hZero ((Codegen.ofInt_eq_zero_iff hb).mp h), if_neg hZero]
    rfl

end

-- ---
-- Whole expressions
-- ---

section

variable (constants : Name → Option Int) (typeSize : String → Option Nat)

/-- The evaluator and the code compute the exact value, and it is a `long long`. -/
structure Settled (e : Expr) : Prop where
  exact : compileTimeValue constants typeSize e = exactValue constants typeSize e
  bound : ∀ v, exactValue constants typeSize e = some v → IsLongLong v
  kept : ∀ v, exactValue constants typeSize e = some v →
    runTimeWord constants typeSize e = some (BitVec.ofInt 64 v)

/-- An expression keeps its value just where it stays in `long long`. -/
def Settles (e : Expr) : Prop :=
  (ValueKept constants typeSize e ↔ FitsLongLong constants typeSize e) ∧
    (FitsLongLong constants typeSize e → Settled constants typeSize e)

variable {constants typeSize}

theorem Settled.valueKept {e : Expr} (h : Settled constants typeSize e)
    (hSafe : HostSafe constants typeSize e) : ValueKept constants typeSize e := by
  refine ⟨fun v hv => ?_, hSafe⟩
  rw [h.exact] at hv
  rw [h.kept v hv, map_some, toInt_ofInt_of_isLongLong (h.bound v hv)]

/-- An expression whose operator is all that can go wrong. -/
theorem settles_of {e : Expr} (hLeaf : LeafFits constants e)
    (hNode : HostSafe constants typeSize e ↔ NodeDefined (exactValue constants typeSize) e)
    (hSettled : NodeDefined (exactValue constants typeSize) e → Settled constants typeSize e) :
    Settles constants typeSize e := by
  refine ⟨⟨fun h => ⟨hLeaf, hNode.mp h.2⟩, fun h => ?_⟩, fun h => hSettled h.2⟩
  exact (hSettled h.2).valueKept (hNode.mpr h.2)

theorem settles_of_none {e : Expr} (hCompile : compileTimeValue constants typeSize e = none)
    (hExact : exactValue constants typeSize e = none) (hLeaf : LeafFits constants e)
    (hNode : HostSafe constants typeSize e ↔ NodeDefined (exactValue constants typeSize) e) :
    Settles constants typeSize e := by
  refine settles_of hLeaf hNode fun _ => ⟨hCompile.trans hExact.symm, ?_, ?_⟩
  · intro v hv
    rw [hExact] at hv
    cases hv
  · intro v hv
    rw [hExact] at hv
    cases hv

theorem sizeofConstant_isLongLong {t : String} {v : Int}
    (h : sizeofConstant typeSize t = some v) : IsLongLong v := by
  obtain ⟨size, -, hLess⟩ := bind_eq_some_iff.mp h
  split_ifs at hLess with hSmall
  cases hLess
  exact ⟨by omega, by omega⟩

/-- Of all calls only `sizeof` of a name has a value at compile time. -/
theorem functionCall_cases (f : Name) (arguments : List Expr) :
    (∃ t, f = "sizeof" ∧ arguments = [.identifier t]) ∨
      ∀ constants typeSize, compileTimeValue constants typeSize (.functionCall f arguments) = none ∧
        exactValue constants typeSize (.functionCall f arguments) = none := by
  by_cases hSizeof : ∃ t, f = "sizeof" ∧ arguments = [.identifier t]
  · exact .inl hSizeof
  · refine .inr fun constants typeSize => ⟨?_, ?_⟩
    · unfold compileTimeValue evalIntegerConstantWith
      split <;> first | rfl | simp_all
    · unfold exactValue
      split <;> first | rfl | simp_all

theorem methodCall_cases (object : Expr) (f : Name) (arguments : List Expr) :
    (∃ t, f = "sizeof" ∧ arguments = [.identifier t]) ∨ ∀ constants typeSize,
        compileTimeValue constants typeSize (.methodCall object f arguments) = none ∧
          exactValue constants typeSize (.methodCall object f arguments) = none := by
  by_cases hSizeof : ∃ t, f = "sizeof" ∧ arguments = [.identifier t]
  · exact .inl hSizeof
  · refine .inr fun constants typeSize => ⟨?_, ?_⟩
    · unfold compileTimeValue evalIntegerConstantWith
      split <;> first | rfl | simp_all
    · unfold exactValue
      split <;> first | rfl | simp_all

theorem settles_sizeof {e : Expr} {t : String}
    (hCompile : compileTimeValue constants typeSize e = sizeofConstant typeSize t)
    (hExact : exactValue constants typeSize e = sizeofConstant typeSize t)
    (hRun : runTimeWord constants typeSize e = (sizeofConstant typeSize t).map (BitVec.ofInt 64))
    (hLeaf : LeafFits constants e)
    (hNode : HostSafe constants typeSize e ↔ NodeDefined (exactValue constants typeSize) e) :
    Settles constants typeSize e := by
  refine settles_of hLeaf hNode fun _ => ⟨hCompile.trans hExact.symm, ?_, ?_⟩
  · exact fun v hv => sizeofConstant_isLongLong (hExact ▸ hv)
  · intro v hv
    rw [hRun, ← hExact, hv, map_some]

theorem settles_functionCall (f : Name) (arguments : List Expr) :
    Settles constants typeSize (.functionCall f arguments) := by
  rcases functionCall_cases f arguments with ⟨t, rfl, rfl⟩ | hNone
  · exact settles_sizeof (t := t) rfl rfl rfl trivial Iff.rfl
  · exact settles_of_none (hNone _ _).1 (hNone _ _).2 trivial Iff.rfl

theorem settles_methodCall (object : Expr) (f : Name) (arguments : List Expr) :
    Settles constants typeSize (.methodCall object f arguments) := by
  rcases methodCall_cases object f arguments with ⟨t, rfl, rfl⟩ | hNone
  · exact settles_sizeof (t := t) rfl rfl rfl trivial Iff.rfl
  · exact settles_of_none (hNone _ _).1 (hNone _ _).2 trivial Iff.rfl

/-- A literal and a named constant: the word holds the value if the value is a `long long`. -/
theorem settles_leaf {e : Expr} (hExact : compileTimeValue constants typeSize e =
      exactValue constants typeSize e)
    (hRun : runTimeWord constants typeSize e =
      (exactValue constants typeSize e).map (BitVec.ofInt 64))
    (hLeaf : LeafFits constants e ↔ ∀ v, exactValue constants typeSize e = some v → IsLongLong v)
    (hNode : HostSafe constants typeSize e ∧ NodeDefined (exactValue constants typeSize) e) :
    Settles constants typeSize e := by
  have hSettled : LeafFits constants e → Settled constants typeSize e := fun h =>
    ⟨hExact, hLeaf.mp h, fun v hv => by rw [hRun, hv, map_some]⟩
  refine ⟨⟨fun h => ⟨hLeaf.mpr fun v hv => ?_, hNode.2⟩, fun h => ?_⟩, fun h => hSettled h.1⟩
  · have hKept := h.1 v (hExact.trans hv)
    rw [hRun, hv, map_some, map_some] at hKept
    exact some.inj hKept ▸ isLongLong_toInt _
  · exact (hSettled h.1).valueKept hNode.1

theorem settles_numberLiteral (value : Int) (radix : Nat) :
    Settles constants typeSize (.numberLiteral value radix) := by
  refine settles_leaf rfl rfl ?_ ⟨trivial, trivial⟩
  exact ⟨fun h v hv => some.inj hv ▸ h, fun h => h value rfl⟩

theorem settles_identifier (x : Name) : Settles constants typeSize (.identifier x) :=
  settles_leaf rfl rfl Iff.rfl ⟨trivial, trivial⟩

theorem settles_unary (op : UnaryOp) {e : Expr} (h : Settled constants typeSize e) :
    Settles constants typeSize (.unaryExpression op e) := by
  cases op with
  | plus =>
    refine settles_of trivial Iff.rfl fun _ => ⟨h.exact, h.bound, fun v hv => ?_⟩
    rw [runTimeWord, h.kept v hv]
    rfl
  | minus =>
    have hCompile : compileTimeValue constants typeSize (.unaryExpression .minus e) =
        (exactValue constants typeSize e).map fun v => wrapLongLong (-v) := by
      rw [← h.exact]
      rfl
    have hNode : HostSafe constants typeSize (.unaryExpression .minus e) ↔
        NodeDefined (exactValue constants typeSize) (.unaryExpression .minus e) := by
      show (∀ v, compileTimeValue constants typeSize e = some v → _) ↔ _
      rw [h.exact]
      rfl
    refine settles_of trivial hNode fun hFits => ⟨?_, ?_, ?_⟩
    · rw [hCompile]
      refine map_congr fun v hv => ?_
      exact wrapLongLong_of_isLongLong (hFits v hv)
    · intro v hv
      obtain ⟨w, hw, rfl⟩ := map_eq_some_iff.mp
        (show (exactValue constants typeSize e).map _ = some v from hv)
      exact hFits w hw
    · intro v hv
      obtain ⟨w, hw, rfl⟩ := map_eq_some_iff.mp
        (show (exactValue constants typeSize e).map _ = some v from hv)
      rw [runTimeWord, h.kept w hw, bind_some, BitVec.ofInt_neg]
      rfl
  | bitNot | logicalNot | addressOf | deref =>
    exact settles_of_none rfl rfl trivial Iff.rfl

variable (constants typeSize) in
theorem compileTimeValue_binary (l : Expr) (op : BinaryOp) (r : Expr) :
    compileTimeValue constants typeSize (.binaryExpression l op r) =
      (compileTimeValue constants typeSize l).bind fun left =>
        (compileTimeValue constants typeSize r).bind (evalBinaryConstant op left) := by
  unfold compileTimeValue
  rw [evalIntegerConstantWith]
  cases evalIntegerConstantWith constants typeSize l <;>
    cases evalIntegerConstantWith constants typeSize r <;> rfl

/-- The code of a binary expression, once both operands have left their values. -/
theorem runTimeWord_binary {l r : Expr} {a b v : Int} (ha : IsLongLong a) (hb : IsLongLong b)
    (hLeft : runTimeWord constants typeSize l = some (BitVec.ofInt 64 a))
    (hRight : runTimeWord constants typeSize r = some (BitVec.ofInt 64 b))
    (hHost : HostDefined op a b) (hValue : evalBinaryConstant op a b = some v) :
    runTimeWord constants typeSize (.binaryExpression l op r) = some (BitVec.ofInt 64 v) := by
  have hZero := Codegen.ofInt_eq_zero_iff ha
  by_cases hAnd : op = .logicalAnd
  · subst hAnd
    rw [runTimeWord, hLeft, bind_some, hRight, map_some, truthWord_ofInt hb, ← some.inj hValue]
    simp only [hZero]
    by_cases hA : a = 0 <;> by_cases hB : b = 0 <;> simp [hA, hB]
  by_cases hOr : op = .logicalOr
  · subst hOr
    rw [runTimeWord, hLeft, bind_some, hRight, map_some, truthWord_ofInt hb, ← some.inj hValue]
    simp only [hZero]
    by_cases hA : a = 0 <;> by_cases hB : b = 0 <;> simp [hA, hB]
  obtain ⟨operation, hOp⟩ : ∃ operation, instructionOp op = some operation := by
    cases op <;> first | exact ⟨_, rfl⟩ | exact absurd rfl hAnd | exact absurd rfl hOr
  rw [runTimeWord, hLeft, bind_some, hRight, bind_some, hOp, bind_some]
  · exact resultWord_of_evalBinaryConstant ha hb hHost hOp hValue
  · exact hAnd
  · exact hOr

theorem settles_binary (op : BinaryOp) {l r : Expr} (hl : Settled constants typeSize l)
    (hr : Settled constants typeSize r) :
    Settles constants typeSize (.binaryExpression l op r) := by
  have hNode : HostSafe constants typeSize (.binaryExpression l op r) ↔
      NodeDefined (exactValue constants typeSize) (.binaryExpression l op r) := by
    show (∀ x y, compileTimeValue constants typeSize l = some x →
      compileTimeValue constants typeSize r = some y → _) ↔ _
    rw [hl.exact, hr.exact]
    rfl
  have hCompile := compileTimeValue_binary constants typeSize l op r
  rw [hl.exact, hr.exact] at hCompile
  refine settles_of trivial hNode fun hFits => ⟨?_, ?_, ?_⟩
  · rw [hCompile]
    refine bind_congr fun a ha => bind_congr fun b hb => ?_
    exact (operator_exact (hl.bound a ha) (hFits a b ha hb)).1
  · intro v hv
    obtain ⟨a, ha, hv⟩ := bind_eq_some_iff.mp hv
    obtain ⟨b, hb, hv⟩ := bind_eq_some_iff.mp hv
    exact (operator_exact (hl.bound a ha) (hFits a b ha hb)).2 v hv
  · intro v hv
    obtain ⟨a, ha, hv⟩ := bind_eq_some_iff.mp hv
    obtain ⟨b, hb, hv⟩ := bind_eq_some_iff.mp hv
    have hHost := hFits a b ha hb
    rw [← (operator_exact (hl.bound a ha) hHost).1] at hv
    exact runTimeWord_binary (hl.bound a ha) (hr.bound b hb) (hl.kept a ha) (hr.kept b hb) hHost hv

theorem parts_settle (constants : Name → Option Int) (typeSize : String → Option Nat) (e : Expr) :
    ((∀ s ∈ parts e, ValueKept constants typeSize s) ↔
        ∀ s ∈ parts e, FitsLongLong constants typeSize s) ∧
      ((∀ s ∈ parts e, FitsLongLong constants typeSize s) → Settled constants typeSize e) := by
  have hLeaf : ∀ {e : Expr}, parts e = [e] → Settles constants typeSize e →
      ((∀ s ∈ parts e, ValueKept constants typeSize s) ↔
          ∀ s ∈ parts e, FitsLongLong constants typeSize s) ∧
        ((∀ s ∈ parts e, FitsLongLong constants typeSize s) → Settled constants typeSize e) := by
    intro e hParts h
    rw [hParts]
    simp only [List.forall_mem_singleton]
    exact h
  match e with
  | .numberLiteral value radix => exact hLeaf rfl (settles_numberLiteral _ _)
  | .identifier x => exact hLeaf rfl (settles_identifier x)
  | .unaryExpression op e =>
    obtain ⟨hIff, hSettled⟩ := parts_settle constants typeSize e
    have hNode : (∀ s ∈ parts e, FitsLongLong constants typeSize s) →
        Settles constants typeSize (.unaryExpression op e) := fun h => settles_unary op (hSettled h)
    simp only [parts, List.forall_mem_cons]
    refine ⟨?_, fun h => (hNode h.2).2 h.1⟩
    rw [hIff]
    exact ⟨fun h => ⟨(hNode h.2).1.mp h.1, h.2⟩, fun h => ⟨(hNode h.2).1.mpr h.1, h.2⟩⟩
  | .binaryExpression l op r =>
    obtain ⟨hIffLeft, hLeft⟩ := parts_settle constants typeSize l
    obtain ⟨hIffRight, hRight⟩ := parts_settle constants typeSize r
    have hNode : (∀ s ∈ parts l, FitsLongLong constants typeSize s) →
        (∀ s ∈ parts r, FitsLongLong constants typeSize s) →
        Settles constants typeSize (.binaryExpression l op r) :=
      fun hl hr => settles_binary op (hLeft hl) (hRight hr)
    simp only [parts, List.forall_mem_cons, List.forall_mem_append]
    refine ⟨?_, fun h => (hNode h.2.1 h.2.2).2 h.1⟩
    rw [hIffLeft, hIffRight]
    exact ⟨fun h => ⟨(hNode h.2.1 h.2.2).1.mp h.1, h.2⟩,
      fun h => ⟨(hNode h.2.1 h.2.2).1.mpr h.1, h.2⟩⟩
  | .functionCall f arguments => exact hLeaf rfl (settles_functionCall _ _)
  | .methodCall object f arguments => exact hLeaf rfl (settles_methodCall _ _ _)
  | .floatLiteral _ | .stringLiteral _ | .funcPtrCall _ _ | .memberAccess _ _
  | .indexExpression _ _ | .newExpression _ | .castExpression _ _ | .matchExpression _ _ =>
    exact hLeaf rfl (settles_of_none rfl rfl trivial Iff.rfl)

end

/-- **Constants.** For an expression and everything it is computed from, the
value at compile time is the value at run time and the host computes it without
overflow, if and only if nothing that is computed leaves `long long`. -/
theorem constants_agree_iff (constants : Name → Option Int)
    (typeSize : String → Option Nat) (e : Expr) :
    (∀ s ∈ parts e, ValueKept constants typeSize s) ↔
      ∀ s ∈ parts e, FitsLongLong constants typeSize s :=
  (parts_settle constants typeSize e).1

/-- `(-9223372036854775807 - 1) / -1`. -/
def minimumQuotient : Expr :=
  .binaryExpression
    (.binaryExpression (.unaryExpression .minus (.numberLiteral 9223372036854775807 10)) .sub
      (.numberLiteral 1 10))
    .div (.unaryExpression .minus (.numberLiteral 1 10))

/-- The evaluator divides, which C does not define, and the code traps. -/
theorem not_valueKept_minimumQuotient :
    ¬ ∀ (constants : Name → Option Int) (typeSize : String → Option Nat) (e : Expr),
      ValueKept constants typeSize e := by
  intro h
  have hSafe := (h (fun _ => none) (fun _ => none) minimumQuotient).2
  exact hSafe (-2 ^ 63) (-1) (by decide) (by decide) ⟨rfl, rfl⟩

-- ---
-- The inferred types
-- ---

section

variable {Γ : Context} {c c' : Checker}

def Visible (Γ : Context) (c c' : Checker) : Prop :=
  ∀ x s, Γ.lookup c x = some s → Γ.lookup c' x = some s

theorem Visible.trans {c₁ c₂ c₃ : Checker} (h : Visible Γ c₁ c₂) (h' : Visible Γ c₂ c₃) :
    Visible Γ c₁ c₃ := fun x s hx => h' x s (h x s hx)

theorem visible_insertMissing (c : Checker) (y : Name) (symbol : Symbol) :
    Visible Γ c (Γ.insertMissing c y symbol) := by
  intro x s hx
  unfold Context.insertMissing
  split_ifs with hSeen
  · exact hx
  · have hOther : (x == y) = false := by
      refine beq_eq_false_iff_ne.mpr ?_
      rintro rfl
      rw [hx] at hSeen
      exact hSeen rfl
    unfold Checker.insert
    cases hScopes : c.scopes with
    | nil => exact hx
    | cons scope rest =>
      unfold Context.lookup at hx ⊢
      rw [hScopes] at hx
      simp only [lookupScopes, List.lookup_cons, hOther] at hx ⊢
      exact hx

theorem visible_foldl {α : Type} {f : Checker → α → Checker} (hf : ∀ c a, Visible Γ c (f c a))
    (l : List α) (c : Checker) : Visible Γ c (l.foldl f c) := by
  induction l generalizing c with
  | nil => exact fun _ _ h => h
  | cons a l ih => exact (hf c a).trans (ih _)

theorem visible_instantiate (c : Checker) (i : Instance) : Visible Γ c (Γ.instantiate c i) := by
  unfold Context.instantiate
  split_ifs
  · exact fun _ _ h => h
  · exact (visible_insertMissing c _ _).trans
      (visible_foldl (fun c (v : Name × Option Ty) => visible_insertMissing c v.1 _) _ _)

theorem visible_resolveType {text message : String} {t : Ty}
    (h : resolveType Γ text message c = .ok (t, c')) : Visible Γ c c' := by
  simp only [resolveType, bind_run_ok, get_run_ok, Prod.mk.injEq] at h
  obtain ⟨_, _, ⟨rfl, rfl⟩, h⟩ := h
  cases hType : Γ.typeByName c text with
  | none =>
    rw [hType] at h
    cases throw_run_ok.1 h
  | some found =>
    rw [hType] at h
    obtain ⟨_, _, ⟨-, rfl⟩, -, rfl⟩ := h
    unfold Context.typeByName at hType
    split_ifs at hType
    obtain ⟨named, -, rfl⟩ := map_eq_some_iff.1 hType
    exact visible_foldl (fun c i => visible_instantiate c i) _ _

theorem inferSizeof_run {arguments : List Expr} {t : Ty}
    (h : inferSizeof Γ arguments c = .ok (t, c')) : t = .int64 ∧ Visible Γ c c' := by
  unfold inferSizeof at h
  split at h
  · obtain ⟨_, c₁, hResolve, hPure⟩ := bind_run_ok.1 h
    cases pure_run_ok.1 hPure
    exact ⟨rfl, visible_resolveType hResolve⟩
  · cases throw_run_ok.1 h
  · cases throw_run_ok.1 h

theorem largerType_isInteger {t u : Ty} (ht : t.isIntegerType = true)
    (hu : u.isIntegerType = true) : (t.largerType u).isIntegerType = true := by
  unfold Ty.largerType
  split_ifs <;> assumption

theorem defaultIntegerLiteralType_isInteger (value : Int) (radix : Nat) :
    (defaultIntegerLiteralType value radix).isIntegerType = true := by
  unfold defaultIntegerLiteralType
  simp only
  split_ifs <;> rfl

theorem checkBinaryExpression_integers {l r : Expr} {left right t : Ty}
    {a b v : Int} (hl : left.isIntegerType = true) (hr : right.isIntegerType = true)
    (hOp : evalBinaryConstant op a b = some v)
    (h : checkBinaryExpression l left op r right = .ok t) : t.isIntegerType = true := by
  have hNotPointer : ∀ {u : Ty}, u.isIntegerType = true → u.isPointer = false ∧
      u.isNumericType = true ∧ u.typesEqual .string = false ∧ u.isFloatingType = false := by
    intro u hu
    cases u <;> simp_all [Ty.isIntegerType, Ty.isPointer, Ty.isNumericType, Ty.typesEqual,
      Ty.isFloatingType]
  obtain ⟨hl₁, hl₂, hl₃, hl₄⟩ := hNotPointer hl
  obtain ⟨hr₁, hr₂, hr₃, hr₄⟩ := hNotPointer hr
  have hLarger := largerType_isInteger hl hr
  -- a value at compile time rules out the bitwise operators, an integer type the pointers
  have hType : t = .bool ∨ t = left.largerType right := by
    cases op <;>
      simp_all [checkBinaryExpression, Ty.promoteTypes, evalBinaryConstant, bind,
        Except.bind, pure, Except.pure]
    all_goals (split_ifs at h; simp_all)
  rcases hType with rfl | rfl
  · rfl
  · exact hLarger

/-- Named constants that the checker sees, of integer types. -/
def Known (Γ : Context) (constants : Name → Option Int) (c : Checker) : Prop :=
  ∀ x v, constants x = some v → ∃ t isLocal, t.isIntegerType = true ∧
    Γ.lookup c x = some (.constant t v, isLocal)

theorem Known.of_visible {constants : Name → Option Int} (h : Known Γ constants c)
    (hVisible : Visible Γ c c') : Known Γ constants c' := by
  intro x v hx
  obtain ⟨t, isLocal, hInteger, hLookup⟩ := h x v hx
  exact ⟨t, isLocal, hInteger, hVisible x _ hLookup⟩

theorem inferIdentifier_constant {x : Name} {t u : Ty} {v : Int} {isLocal : Bool}
    (hLookup : Γ.lookup c x = some (.constant u v, isLocal))
    (h : inferIdentifier Γ x c = .ok (t, c')) : t = u ∧ c' = c := by
  obtain ⟨_, _, hGet, h⟩ := bind_run_ok.1 h
  cases get_run_ok.1 hGet
  rw [hLookup] at h
  cases pure_run_ok.1 h
  exact ⟨rfl, rfl⟩

theorem inferType_known (constants : Name → Option Int) (typeSize : String → Option Nat)
    (e : Expr) {c c' : Checker} {t : Ty} {v : Int} (hKnown : Known Γ constants c)
    (hValue : compileTimeValue constants typeSize e = some v)
    (h : inferType Γ e c = .ok (t, c')) :
    t.isIntegerType = true ∧ Visible Γ c c' := by
  match e with
  | .numberLiteral value radix =>
    cases pure_run_ok.1 h
    exact ⟨defaultIntegerLiteralType_isInteger value radix, fun _ _ hx => hx⟩
  | .identifier x =>
    obtain ⟨u, isLocal, hInteger, hLookup⟩ := hKnown x v hValue
    obtain ⟨rfl, rfl⟩ := inferIdentifier_constant hLookup h
    exact ⟨hInteger, fun _ _ hx => hx⟩
  | .unaryExpression op e =>
    have hOperand : ∃ w, compileTimeValue constants typeSize e = some w := by
      cases op with
      | plus => exact ⟨v, hValue⟩
      | minus =>
        obtain ⟨w, hw, -⟩ := map_eq_some_iff.1
          (show (compileTimeValue constants typeSize e).map _ = some v from hValue)
        exact ⟨w, hw⟩
      | bitNot | logicalNot | addressOf | deref => cases hValue
    obtain ⟨w, hw⟩ := hOperand
    have hSign : ∀ u, checkUnaryExpression op e u = .ok t → t = u := by
      intro u hu
      cases op with
      | plus | minus =>
        unfold checkUnaryExpression at hu
        simp only at hu
        split_ifs at hu
        exact (Except.ok.inj hu).symm
      | bitNot | logicalNot | addressOf | deref => cases hValue
    have hRun : ∃ u c₁, inferType Γ e c = .ok (u, c₁) ∧ checkUnaryExpression op e u = .ok t ∧
        c₁ = c' := by
      rw [inferType] at h
      · obtain ⟨u, c₁, hInfer, hLift⟩ := bind_run_ok.1 h
        obtain ⟨a, ha, hPair⟩ := lift_run_ok.1 hLift
        obtain ⟨rfl, rfl⟩ := Prod.mk.inj hPair
        exact ⟨u, c₁, hInfer, ha, rfl⟩
      · rintro rfl
        cases hValue
    obtain ⟨u, c₁, hInfer, hCheck, rfl⟩ := hRun
    obtain rfl := hSign u hCheck
    exact inferType_known constants typeSize e hKnown hw hInfer
  | .binaryExpression l op r =>
    rw [compileTimeValue_binary] at hValue
    obtain ⟨a, ha, hValue⟩ := bind_eq_some_iff.mp hValue
    obtain ⟨b, hb, hOp⟩ := bind_eq_some_iff.mp hValue
    obtain ⟨left, c₁, hLeft, h⟩ := bind_run_ok.1 h
    obtain ⟨right, c₂, hRight, h⟩ := bind_run_ok.1 h
    obtain ⟨u, hCheck, hPair⟩ := lift_run_ok.1 h
    cases hPair
    obtain ⟨hLeftInteger, hFirst⟩ := inferType_known constants typeSize l hKnown ha hLeft
    obtain ⟨hRightInteger, hSecond⟩ :=
      inferType_known constants typeSize r (hKnown.of_visible hFirst) hb hRight
    exact ⟨checkBinaryExpression_integers hLeftInteger hRightInteger hOp hCheck,
      hFirst.trans hSecond⟩
  | .functionCall f arguments =>
    rcases functionCall_cases f arguments with ⟨name, rfl, rfl⟩ | hNone
    · rw [inferType, if_pos rfl] at h
      obtain ⟨rfl, hVisible⟩ := inferSizeof_run h
      exact ⟨rfl, hVisible⟩
    · cases (hNone _ _).1.symm.trans hValue
  | .methodCall object f arguments =>
    rcases methodCall_cases object f arguments with ⟨name, rfl, rfl⟩ | hNone
    · rw [inferType, if_pos rfl] at h
      obtain ⟨rfl, hVisible⟩ := inferSizeof_run h
      exact ⟨rfl, hVisible⟩
    · cases (hNone _ _).1.symm.trans hValue
  | .floatLiteral _ | .stringLiteral _ | .funcPtrCall _ _ | .memberAccess _ _
  | .indexExpression _ _ | .newExpression _ | .castExpression _ _ | .matchExpression _ _ =>
    cases hValue

theorem constantValue_eq_some {x : Name} {v : Int} :
    Γ.constantValue c x = some v ↔ ∃ t isLocal, Γ.lookup c x = some (.constant t v, isLocal) := by
  unfold Context.constantValue
  constructor
  · intro h
    split at h
    · next t w isLocal hLookup =>
      cases h
      exact ⟨t, isLocal, hLookup⟩
    · cases h
  · rintro ⟨t, isLocal, hLookup⟩
    rw [hLookup]

/-- More constants in scope leave an expression that has a value with that value. -/
theorem compileTimeValue_mono {constants constants' : Name → Option Int}
    {typeSize : String → Option Nat} (hMore : ∀ x v, constants x = some v → constants' x = some v)
    (e : Expr) {v : Int} (h : compileTimeValue constants typeSize e = some v) :
    compileTimeValue constants' typeSize e = some v := by
  match e with
  | .identifier x => exact hMore x v h
  | .unaryExpression .plus e => exact compileTimeValue_mono hMore e h
  | .unaryExpression .minus e =>
    obtain ⟨w, hw, rfl⟩ := map_eq_some_iff.1
      (show (compileTimeValue constants typeSize e).map _ = some v from h)
    show (compileTimeValue constants' typeSize e).map _ = _
    rw [compileTimeValue_mono hMore e hw, map_some]
  | .binaryExpression l op r =>
    rw [compileTimeValue_binary] at h ⊢
    obtain ⟨a, ha, h⟩ := bind_eq_some_iff.mp h
    obtain ⟨b, hb, h⟩ := bind_eq_some_iff.mp h
    rw [compileTimeValue_mono hMore l ha, bind_some, compileTimeValue_mono hMore r hb, bind_some, h]
  | .functionCall f arguments =>
    rcases functionCall_cases f arguments with ⟨name, rfl, rfl⟩ | hNone
    · exact h
    · cases (hNone _ _).1.symm.trans h
  | .methodCall object f arguments =>
    rcases methodCall_cases object f arguments with ⟨name, rfl, rfl⟩ | hNone
    · exact h
    · cases (hNone _ _).1.symm.trans h
  | .unaryExpression .bitNot _ | .unaryExpression .logicalNot _ | .unaryExpression .addressOf _
  | .unaryExpression .deref _ | .numberLiteral _ _
  | .floatLiteral _ | .stringLiteral _ | .funcPtrCall _ _ | .memberAccess _ _
  | .indexExpression _ _ | .newExpression _ | .castExpression _ _ | .matchExpression _ _ =>
    exact h

/-- **Constants are integers and stay constants.** Where all named constants that are visible
have integer types, the checker gives every expression that has a value at compile time an
integer type; whatever was visible before is visible after it, and the expression still has that
value. -/
theorem inferType_constant (typeSize : String → Option Nat) (e : Expr) {c c' : Checker} {t : Ty}
    {v : Int} (hIntegers : ∀ x u w isLocal, Γ.lookup c x = some (.constant u w, isLocal) →
      u.isIntegerType = true)
    (hValue : compileTimeValue (Γ.constantValue c) typeSize e = some v)
    (h : inferType Γ e c = .ok (t, c')) :
    t.isIntegerType = true ∧ Visible Γ c c' ∧
      compileTimeValue (Γ.constantValue c') typeSize e = some v := by
  have hKnown : Known Γ (Γ.constantValue c) c := by
    intro x w hx
    obtain ⟨u, isLocal, hLookup⟩ := constantValue_eq_some.mp hx
    exact ⟨u, isLocal, hIntegers x u w isLocal hLookup, hLookup⟩
  obtain ⟨hInteger, hVisible⟩ := inferType_known _ typeSize e hKnown hValue h
  refine ⟨hInteger, hVisible, compileTimeValue_mono (fun x w hx => ?_) e hValue⟩
  obtain ⟨u, isLocal, hLookup⟩ := constantValue_eq_some.mp hx
  exact constantValue_eq_some.mpr ⟨u, isLocal, hVisible x _ hLookup⟩

/-- `true + 4`, with the constants of the checker in scope. -/
theorem inferType_constant_sum :
    let Γ : Context := ⟨[("true", .constant .bool 1)], fun _ => none, fun _ _ => false, fun _ => 0,
      fun _ => [], fun _ => [], .int32⟩
    let c : Checker := ⟨[[]], [], [], 0, 0⟩
    Ty.int32.isIntegerType = true ∧ Visible Γ c c ∧
      compileTimeValue (Γ.constantValue c) (fun _ => none)
        (.binaryExpression (.identifier "true") .add (.numberLiteral 4 10)) = some 5 := by
  refine inferType_constant _ _ (fun x u w isLocal h => ?_) rfl rfl
  obtain ⟨symbol, hFound, hPair⟩ := map_eq_some_iff.mp
    (show (List.lookup x [("true", Symbol.constant .bool 1)]).map _ = _ from h)
  cases hPair
  rw [List.lookup_cons] at hFound
  split at hFound
  · cases hFound
    rfl
  · cases hFound

end

end Mettle.Semantic
