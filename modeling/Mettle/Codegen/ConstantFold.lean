import Mettle.Codegen.InstructionCode

/-!
# Mettle — constant folding and what the folded code would have computed

The folder of `ir_optimize.c` evaluates integer instructions in C, the binary back end
emits x86 code for them. The two are written independently: here every value the folder
produces is compared with the word that the code of the instruction it replaces leaves in
its destination.

They agree on all operators but one. The folder takes `&&` as the logical operator of C,
and the back end tests the bitwise conjunction of its operands.
-/

namespace Mettle.Codegen

open Mettle.IR Mettle.Lib Option

-- ---
-- Arithmetic of the folder
-- ---

def LLONG_MIN : Int := -2 ^ 63

/-- `(long long)` of an `unsigned long long`. -/
def toLongLong (w : Word) : Int := w.toInt

/-- `a / b` in C; `none` where it has no meaning. -/
def cDivide (a b : Int) : Option Int :=
  if b = 0 ∨ (a = LLONG_MIN ∧ b = -1) then none else some (a.tdiv b)

/-- `a % b` in C. -/
def cRemainder (a b : Int) : Option Int :=
  if b = 0 ∨ (a = LLONG_MIN ∧ b = -1) then none else some (a.tmod b)

/-- `(unsigned long long)a << b` in C. -/
def cShiftLeft (a b : Int) : Option Int :=
  if 0 ≤ b ∧ b < 64 then some (toLongLong (BitVec.ofInt 64 a <<< b.toNat)) else none

/-- `a >> b` in C, which copies the sign. -/
def cShiftRight (a b : Int) : Option Int :=
  if 0 ≤ b ∧ b < 64 then some (a / 2 ^ b.toNat) else none

/-- What evaluating an operator did: nothing, something without a meaning, or a value. -/
inductive Evaluated
  | left
  | undefined
  | value (result : Int)
  deriving DecidableEq

def Evaluated.ofC : Option Int → Evaluated
  | some result => .value result
  | none => .undefined

def Evaluated.ofBool (holds : Bool) : Evaluated := .value (if holds then 1 else 0)

/-- The folded value of an integer operator. -/
def irTryEvaluateIntegerBinary (op : String) (lhs rhs : Int) : Evaluated :=
  let x := BitVec.ofInt 64 lhs
  let y := BitVec.ofInt 64 rhs
  if op = "+" then .value (toLongLong (x + y))
  else if op = "-" then .value (toLongLong (x - y))
  else if op = "*" then .value (toLongLong (x * y))
  else if op = "/" then
    if rhs = 0 ∨ (lhs = LLONG_MIN ∧ rhs = -1) then .left else .ofC (cDivide lhs rhs)
  else if op = "%" then
    if rhs = 0 ∨ (lhs = LLONG_MIN ∧ rhs = -1) then .left else .ofC (cRemainder lhs rhs)
  else if op = "==" then .ofBool (lhs == rhs)
  else if op = "!=" then .ofBool (lhs != rhs)
  else if op = "<" then .ofBool (decide (lhs < rhs))
  else if op = "<=" then .ofBool (decide (lhs ≤ rhs))
  else if op = ">" then .ofBool (decide (lhs > rhs))
  else if op = ">=" then .ofBool (decide (lhs ≥ rhs))
  else if op = "&&" then .ofBool (lhs != 0 && rhs != 0)
  else if op = "||" then .ofBool (lhs != 0 || rhs != 0)
  else if op = "&" then .value (toLongLong (x &&& y))
  else if op = "|" then .value (toLongLong (x ||| y))
  else if op = "^" then .value (toLongLong (x ^^^ y))
  else if op = "<<" then
    if rhs < 0 ∨ rhs ≥ 64 then .left else .ofC (cShiftLeft lhs rhs)
  else if op = ">>" then
    if rhs < 0 ∨ rhs ≥ 64 then .left else .ofC (cShiftRight lhs rhs)
  else .left

theorem ite_ne_of {α : Type} {c : Prop} [Decidable c] {first second other : α}
    (hFirst : c → first ≠ other) (hSecond : ¬ c → second ≠ other) :
    (if c then first else second) ≠ other := by
  split
  · exact hFirst ‹c›
  · exact hSecond ‹¬ c›

/-- **Nothing without a meaning is evaluated**: no division by zero, no quotient that does not fit,
no shift by a count out of range. -/
theorem irTryEvaluateIntegerBinary_defined (op : String) (lhs rhs : Int) :
    irTryEvaluateIntegerBinary op lhs rhs ≠ .undefined := by
  iterate 3 refine ite_ne_of (fun _ => nofun) fun _ => ?_
  refine ite_ne_of (fun _ => ite_ne_of (fun _ => nofun) fun hDivide => ?_) fun _ => ?_
  · rw [cDivide, if_neg hDivide]
    exact nofun
  refine ite_ne_of (fun _ => ite_ne_of (fun _ => nofun) fun hDivide => ?_) fun _ => ?_
  · rw [cRemainder, if_neg hDivide]
    exact nofun
  iterate 11 refine ite_ne_of (fun _ => nofun) fun _ => ?_
  refine ite_ne_of (fun _ => ite_ne_of (fun _ => nofun) fun hCount => ?_) fun _ => ?_
  · rw [cShiftLeft, if_pos (by omega)]
    exact nofun
  refine ite_ne_of (fun _ => ite_ne_of (fun _ => nofun) fun hCount => ?_) fun _ => nofun
  rw [cShiftRight, if_pos (by omega)]
  exact nofun

/-- `ir_try_get_positive_pow2_shift`, the same test as the back end's. -/
def irTryGetPositivePow2Shift (value : Int) : Option Nat := extractPositivePowerOfTwo value

-- ---
-- The folder
-- ---

/-- What an instruction is rewritten to. -/
inductive Folded
  | unchanged
  | undefined
  | assignInt (value : Int)
  | assignOperand (operand : IROperand)
  | shiftLeft (operand : IROperand) (shift : Nat)
  deriving DecidableEq

def foldEqualOperands (op : String) (lhs : IROperand) : Folded :=
  if op = "-" ∨ op = "^" then .assignInt 0
  else if op = "|" ∨ op = "&" then .assignOperand lhs
  else if op = "==" ∨ op = "<=" ∨ op = ">=" then .assignInt 1
  else if op = "!=" ∨ op = "<" ∨ op = ">" then .assignInt 0
  else .unchanged

def properPow2Shift : IROperand → Option Nat
  | .int value => (irTryGetPositivePow2Shift value).filter (0 < ·)
  | _ => none

def foldIdentity (op : String) (lhs rhs : IROperand) : Folded :=
  if op = "+" then
    if rhs = .int 0 then .assignOperand lhs
    else if lhs = .int 0 then .assignOperand rhs
    else .unchanged
  else if op = "-" then
    if rhs = .int 0 then .assignOperand lhs else .unchanged
  else if op = "*" then
    match properPow2Shift rhs, properPow2Shift lhs with
    | some shift, _ => .shiftLeft lhs shift
    | none, some shift => .shiftLeft rhs shift
    | none, none =>
      if lhs = .int 0 ∨ rhs = .int 0 then .assignInt 0
      else if rhs = .int 1 then .assignOperand lhs
      else if lhs = .int 1 then .assignOperand rhs
      else .unchanged
  else if op = "/" then
    if rhs = .int 1 then .assignOperand lhs else .unchanged
  else if op = "%" then
    if rhs = .int 1 then .assignInt 0 else .unchanged
  else if op = "&" then
    if lhs = .int 0 ∨ rhs = .int 0 then .assignInt 0
    else if rhs = .int (-1) then .assignOperand lhs
    else if lhs = .int (-1) then .assignOperand rhs
    else .unchanged
  else if op = "|" ∨ op = "^" then
    if rhs = .int 0 then .assignOperand lhs
    else if lhs = .int 0 then .assignOperand rhs
    else .unchanged
  else if op = "<<" ∨ op = ">>" then
    if rhs = .int 0 then .assignOperand lhs else .unchanged
  else .unchanged

def foldConstants (op : String) : IROperand → IROperand → Folded
  | .int a, .int b =>
    match irTryEvaluateIntegerBinary op a b with
    | .value result => .assignInt result
    | .undefined => .undefined
    | .left => .unchanged
  | _, _ => .unchanged

def Folded.orElse (first second : Folded) : Folded :=
  if first = .unchanged then second else first

/-- `ir_try_fold_integer_binary`, for an instruction that is not a float one. -/
def irTryFoldIntegerBinary (op : String) (lhs rhs : IROperand) : Folded :=
  (foldConstants op lhs rhs).orElse
    ((if irOperandEquals lhs rhs then foldEqualOperands op lhs else .unchanged).orElse
      (foldIdentity op lhs rhs))

theorem irTryFoldIntegerBinary_defined (op : String) (lhs rhs : IROperand) :
    irTryFoldIntegerBinary op lhs rhs ≠ .undefined := by
  have hConstants : foldConstants op lhs rhs ≠ .undefined := by
    unfold foldConstants
    split
    · split
      · exact nofun
      · rename_i hUndefined
        exact (irTryEvaluateIntegerBinary_defined _ _ _ hUndefined).elim
      · exact nofun
    · exact nofun
  have hEqual : foldEqualOperands op lhs ≠ .undefined := by
    iterate 4 refine ite_ne_of (fun _ => nofun) fun _ => ?_
    exact nofun
  have hOne : ∀ {c : Prop} [Decidable c] (operand : IROperand),
      (if c then Folded.assignOperand operand else .unchanged) ≠ .undefined :=
    fun _ => ite_ne_of (fun _ => nofun) fun _ => nofun
  have hIdentity : foldIdentity op lhs rhs ≠ .undefined := by
    refine ite_ne_of (fun _ => ite_ne_of (fun _ => nofun) fun _ => hOne _) fun _ => ?_
    refine ite_ne_of (fun _ => hOne _) fun _ => ?_
    refine ite_ne_of (fun _ => ?_) fun _ => ?_
    · split
      · exact nofun
      · exact nofun
      · iterate 2 refine ite_ne_of (fun _ => nofun) fun _ => ?_
        exact hOne _
    refine ite_ne_of (fun _ => hOne _) fun _ => ?_
    refine ite_ne_of (fun _ => ite_ne_of (fun _ => nofun) fun _ => nofun) fun _ => ?_
    refine ite_ne_of (fun _ => ?_) fun _ => ?_
    · iterate 2 refine ite_ne_of (fun _ => nofun) fun _ => ?_
      exact hOne _
    refine ite_ne_of (fun _ => ite_ne_of (fun _ => nofun) fun _ => hOne _) fun _ => ?_
    exact ite_ne_of (fun _ => hOne _) fun _ => nofun
  refine ite_ne_of (fun _ => ite_ne_of (fun _ => hIdentity) fun _ => ?_) fun _ => hConstants
  exact ite_ne_of (fun _ => hEqual) fun _ => nofun

def Folded.word (value : IROperand → Word) : Folded → Option Word
  | .assignInt result => some (BitVec.ofInt 64 result)
  | .assignOperand operand => some (value operand)
  | .shiftLeft operand shift => some (ShiftOp.shl.apply (value operand) shift)
  | .unchanged | .undefined => none

/-- `ir_try_fold_integer_unary`, for a constant operand. -/
def irTryFoldIntegerUnary (op : String) (value : Int) : Option Int :=
  if op = "+" then some value
  else if op = "-" then some (toLongLong (-(BitVec.ofInt 64 value)))
  else if op = "!" then some (if value = 0 then 1 else 0)
  else if op = "~" then some (toLongLong (~~~(BitVec.ofInt 64 value)))
  else none

-- ---
-- The words of the operators
-- ---

def DisjointConstants : IROperand → IROperand → Prop
  | .int a, .int b => a ≠ 0 ∧ b ≠ 0 ∧ (BitVec.ofInt 64 a &&& BitVec.ofInt 64 b : Word) = 0
  | _, _ => False

instance (lhs rhs : IROperand) : Decidable (DisjointConstants lhs rhs) := by
  unfold DisjointConstants
  split <;> infer_instance

variable {a : Int}

theorem int64_inRange (h : IsLongLong a) : IntType.int64.InRange a := h

theorem ofInt_eq_zero_iff (h : IsLongLong a) : BitVec.ofInt 64 a = (0 : Word) ↔ a = 0 := by
  constructor
  · intro hWord
    by_contra hZero
    exact wordOf_ne_zero (int64_inRange h) hZero hWord
  · rintro rfl
    rfl

theorem wordOf_wrap_int64 (x : Int) : wordOf (IntType.int64.wrap x) = wordOf x :=
  ((wordOf_wrap_iff (Or.inl rfl) (Or.inl rfl)).mpr (Or.inl rfl)).symm

variable {b : Int}

theorem evaluate_arith {op : IntegerOp} {r : Int}
    (h : irTryEvaluateIntegerBinary op.text a b = .value r) :
    ValidOperand .int64 op b ∧ Agrees .int64 op a b ∧
      wordOf r = wordOf (IntType.int64.apply op a b) := by
  have hDivisor : ∀ {result : Option Int},
      (if b = 0 ∨ (a = LLONG_MIN ∧ b = -1) then Evaluated.left else .ofC result) = .value r →
      b ≠ 0 ∧ ¬ (a = -2 ^ 63 ∧ b = -1) ∧ result = some r := by
    intro result hValue
    split at hValue
    · cases hValue
    · rename_i hNot
      rw [not_or] at hNot
      refine ⟨hNot.1, hNot.2, ?_⟩
      cases result with
      | none => cases hValue
      | some value => rw [Evaluated.value.inj hValue]
  have hCount : ∀ {result : Option Int},
      (if b < 0 ∨ b ≥ 64 then Evaluated.left else .ofC result) = .value r →
      (0 ≤ b ∧ b < 64) ∧ result = some r := by
    intro result hValue
    split at hValue
    · cases hValue
    · refine ⟨by omega, ?_⟩
      cases result with
      | none => cases hValue
      | some value => rw [Evaluated.value.inj hValue]
  -- the operators that are defined on all operands
  have hTotal : (op ≠ .div ∧ op ≠ .mod ∧ op ≠ .shl ∧ op ≠ .shr) →
      wordOf r = wordOf (IntType.int64.apply op a b) →
      ValidOperand .int64 op b ∧ Agrees .int64 op a b ∧
        wordOf r = wordOf (IntType.int64.apply op a b) := by
    rintro ⟨h1, h2, h3, h4⟩ hWord
    refine ⟨⟨fun h => by tauto, fun h => by tauto⟩, ?_, hWord⟩
    cases op <;> first | exact Or.inl rfl | trivial | exact fun h => by cases h
  cases op
  case add =>
    cases h
    refine hTotal (by decide) ?_
    rw [toLongLong, ← BitVec.ofInt_add]
    rfl
  case sub =>
    cases h
    refine hTotal (by decide) ?_
    rw [toLongLong, BitVec.sub_eq_add_neg, ← BitVec.ofInt_neg, ← BitVec.ofInt_add,
      ← Int.sub_eq_add_neg]
    rfl
  case mul =>
    cases h
    refine hTotal (by decide) ?_
    rw [toLongLong, ← BitVec.ofInt_mul]
    rfl
  case div =>
    obtain ⟨hZero, hTrap, hResult⟩ := hDivisor h
    rw [cDivide, if_neg (by unfold LLONG_MIN; omega)] at hResult
    cases hResult
    refine ⟨⟨fun _ => hZero, fun h => by simp at h⟩, fun h => hTrap h.2, ?_⟩
    exact (wordOf_wrap_int64 _).symm
  case mod =>
    obtain ⟨hZero, hTrap, hResult⟩ := hDivisor h
    rw [cRemainder, if_neg (by unfold LLONG_MIN; omega)] at hResult
    cases hResult
    refine ⟨⟨fun _ => hZero, fun h => by simp at h⟩, fun h => hTrap h.2, ?_⟩
    exact (wordOf_wrap_int64 _).symm
  case shl =>
    obtain ⟨hRange, hResult⟩ := hCount h
    rw [cShiftLeft, if_pos hRange] at hResult
    cases hResult
    refine ⟨⟨fun h => by simp at h, fun _ => hRange⟩, Or.inl rfl, ?_⟩
    have hMul := shlImm_eq_mul (BitVec.ofInt 64 a) (show b.toNat < 64 by omega)
    rw [ShiftOp.apply, Nat.mod_eq_of_lt (by omega)] at hMul
    rw [toLongLong, hMul, ← BitVec.ofInt_mul]
    rfl
  case shr =>
    obtain ⟨hRange, hResult⟩ := hCount h
    rw [cShiftRight, if_pos hRange] at hResult
    cases hResult
    refine ⟨⟨fun h => by simp at h, fun _ => hRange⟩, (fun h => by cases h), ?_⟩
    exact (wordOf_wrap_int64 _).symm
  case and =>
    cases h
    exact hTotal (by decide) rfl
  case or =>
    cases h
    exact hTotal (by decide) rfl
  case xor =>
    cases h
    exact hTotal (by decide) rfl
  all_goals
    cases h
    refine hTotal (by decide) ?_
    simp [IntType.apply]

variable {op : BinaryOp}

theorem evaluate_word_iff {r : Int} (ha : IsLongLong a) (hb : IsLongLong b)
    (h : irTryEvaluateIntegerBinary op.text a b = .value r) :
    op.word 8 (BitVec.ofInt 64 a) (BitVec.ofInt 64 b) = some (BitVec.ofInt 64 r) ↔
      ¬ (op = .logicalAnd ∧ DisjointConstants (.int a) (.int b)) := by
  cases op with
  | arith op =>
    obtain ⟨hValid, hAgrees, hWord⟩ := evaluate_arith h
    refine iff_of_true ?_ fun h => by cases h.1
    have hResult := (resultWord_iff (int64_inRange ha) (int64_inRange hb) hValid).mpr hAgrees
    rw [← hWord] at hResult
    exact hResult
  | logicalAnd =>
    cases h
    simp only [BinaryOp.word, some.injEq, true_and, DisjointConstants]
    by_cases hAZero : a = 0
    · subst hAZero
      simp
    by_cases hBZero : b = 0
    · subst hBZero
      simp
    by_cases hDisjoint : (BitVec.ofInt 64 a &&& BitVec.ofInt 64 b : Word) = 0
    · simp [hAZero, hBZero, hDisjoint]
    · simp [hAZero, hBZero]
  | logicalOr =>
    cases h
    refine iff_of_true ?_ fun h => by cases h.1
    have hOr : (BitVec.ofInt 64 a ||| BitVec.ofInt 64 b : Word) = 0 ↔ a = 0 ∧ b = 0 := by
      rw [← ofInt_eq_zero_iff ha, ← ofInt_eq_zero_iff hb]
      exact BitVec.or_eq_zero_iff
    simp only [BinaryOp.word, hOr]
    by_cases hAZero : a = 0 <;> by_cases hBZero : b = 0 <;> simp [hAZero, hBZero]

-- ---
-- The words of the folder
-- ---

variable (x : Word) {value : IROperand → Word}

section Folder

variable {lhs rhs : IROperand} {r : Word}

theorem emitRegRegCompare_self (width : Nat) :
    emitRegRegCompare x x width = { zero := true, sign := false, overflow := false } := by
  have hSelf : ∀ {n : Nat} (w : BitVec n),
      cmpRegReg w w = { zero := true, sign := false, overflow := false } := by
    intro n w
    simp [cmpRegReg, BitVec.ssubOverflow]
  unfold emitRegRegCompare
  split
  · exact hSelf _
  · exact hSelf _

theorem equalOperands_word (width : Nat) (h : (foldEqualOperands op.text lhs).word value = some r) :
    op.word width (value lhs) (value lhs) = some r := by
  cases op with
  | arith op =>
    cases op
    case sub =>
      cases h
      exact congrArg some (BitVec.sub_self _)
    case xor =>
      cases h
      exact congrArg some BitVec.xor_self
    case and =>
      cases h
      exact congrArg some BitVec.and_self
    case or =>
      cases h
      exact congrArg some BitVec.or_self
    case add | mul | div | mod | shl | shr => cases h
    all_goals
      cases h
      simp only [BinaryOp.word, resultWord, emitRegRegCompare_self]
      rfl
  | logicalAnd => cases h
  | logicalOr => cases h

def OfConstants (value : IROperand → Word) : Prop := ∀ c, value (.int c) = BitVec.ofInt 64 c

theorem properPow2Shift_eq_some {operand : IROperand} {shift : Nat} (hFits : Fits64 operand)
    (h : properPow2Shift operand = some shift) : operand = .int (2 ^ shift) ∧ shift < 64 := by
  cases operand with
  | int c =>
    obtain ⟨hShift, -⟩ := filter_eq_some_iff.mp h
    have hPow := eq_pow_of_extract hShift
    subst hPow
    refine ⟨rfl, ?_⟩
    by_contra hBig
    have hLe : (2 : Int) ^ 64 ≤ 2 ^ shift := pow_le_pow_right₀ (by decide) (by omega)
    have hHigh : (2 : Int) ^ shift < 2 ^ 63 := hFits.2
    omega
  | _ => cases h

theorem idivWord_one : idivWord (if x.msb then -1 else 0) x (BitVec.ofInt 64 1) = some (x, 0) := by
  rw [idivWord_eq _ _ (by decide), if_neg (fun h => absurd h.2 (by decide)),
    show (BitVec.ofInt 64 1 : Word).toInt = 1 from rfl, Int.tdiv_one, Int.tmod_one, wordOf_toInt]
  rfl

theorem shift_zero_count (op : ShiftOp) (x : Word) :
    op.apply x ((BitVec.ofInt 64 0 : Word).toNat % 256) = x := by
  cases op
  · exact BitVec.shiftLeft_zero x
  · exact BitVec.sshiftRight_zero

theorem word_ite {c : Prop} [Decidable c] {first second : Folded}
    (h : (if c then first else second).word value = some r) :
    c ∧ first.word value = some r ∨ second.word value = some r := by
  split at h
  · exact Or.inl ⟨‹c›, h⟩
  · exact Or.inr h

section

variable (hConstants : OfConstants value) (hLhs : Fits64 lhs) (hRhs : Fits64 rhs)
include hConstants hLhs hRhs

theorem identity_mul (h : (foldIdentity "*" lhs rhs).word value = some r) :
    value lhs * value rhs = r := by
  change Folded.word value (match properPow2Shift rhs, properPow2Shift lhs with
    | some shift, _ => .shiftLeft lhs shift
    | none, some shift => .shiftLeft rhs shift
    | none, none =>
      if lhs = .int 0 ∨ rhs = .int 0 then .assignInt 0
      else if rhs = .int 1 then .assignOperand lhs
      else if lhs = .int 1 then .assignOperand rhs
      else .unchanged) = some r at h
  split at h
  · rename_i hShift
    obtain ⟨rfl, hCount⟩ := properPow2Shift_eq_some hRhs hShift
    cases h
    rw [hConstants, shlImm_eq_mul _ hCount]
  · rename_i hShift
    obtain ⟨rfl, hCount⟩ := properPow2Shift_eq_some hLhs hShift
    cases h
    rw [hConstants, shlImm_eq_mul _ hCount, BitVec.mul_comm]
  · rcases word_ite h with ⟨rfl | rfl, hWord⟩ | hRest
    · cases hWord
      rw [hConstants]
      exact BitVec.zero_mul
    · cases hWord
      rw [hConstants]
      exact BitVec.mul_zero
    rcases word_ite hRest with ⟨rfl, hWord⟩ | hRest
    · cases hWord
      rw [hConstants]
      exact BitVec.mul_one _
    rcases word_ite hRest with ⟨rfl, hWord⟩ | hRest
    · cases hWord
      rw [hConstants]
      exact BitVec.one_mul _
    · cases hRest

/-- **The identities hold of the words that the code computes.** -/
theorem identity_word (width : Nat) (h : (foldIdentity op.text lhs rhs).word value = some r) :
    op.word width (value lhs) (value rhs) = some r := by
  -- the operators that 0 is neutral for on both sides
  have hNeutral : ∀ f : Word → Word → Word, (∀ x, f x 0 = x) → (∀ x, f 0 x = x) →
      Folded.word value (if rhs = .int 0 then .assignOperand lhs
        else if lhs = .int 0 then .assignOperand rhs else .unchanged) = some r →
      some (f (value lhs) (value rhs)) = some r := by
    intro f hRight hLeft hFolded
    rcases word_ite hFolded with ⟨rfl, hWord⟩ | hRest
    · rw [hConstants, ← hWord]
      exact congrArg some (hRight _)
    rcases word_ite hRest with ⟨rfl, hWord⟩ | hRest
    · rw [hConstants, ← hWord]
      exact congrArg some (hLeft _)
    · cases hRest
  -- and those that it is neutral for on the right
  have hNeutralRight : ∀ f : Word → Option Word, f (BitVec.ofInt 64 0) = some (value lhs) →
      Folded.word value (if rhs = .int 0 then .assignOperand lhs else .unchanged) = some r →
      f (value rhs) = some r := by
    intro f hRight hFolded
    rcases word_ite hFolded with ⟨rfl, hWord⟩ | hRest
    · rw [hConstants, hRight]
      exact hWord
    · cases hRest
  cases op with
  | arith op =>
    cases op
    case add => exact hNeutral (· + ·) BitVec.add_zero BitVec.zero_add h
    case or => exact hNeutral (· ||| ·) (fun _ => BitVec.or_zero) (fun _ => BitVec.zero_or) h
    case xor => exact hNeutral (· ^^^ ·) (fun _ => BitVec.xor_zero) (fun _ => BitVec.zero_xor) h
    case sub =>
      exact hNeutralRight (resultWord .sub width (value lhs)) (congrArg some (BitVec.sub_zero _)) h
    case shl =>
      exact hNeutralRight (resultWord .shl width (value lhs))
        (congrArg some (shift_zero_count .shl _)) h
    case shr =>
      exact hNeutralRight (resultWord .shr width (value lhs))
        (congrArg some (shift_zero_count .sar _)) h
    case mul => exact congrArg some (identity_mul hConstants hLhs hRhs h)
    case div =>
      rcases word_ite (c := rhs = .int 1) h with ⟨rfl, hWord⟩ | hRest
      · simp only [BinaryOp.word, resultWord]
        rw [hConstants, idivWord_one]
        exact hWord
      · cases hRest
    case mod =>
      rcases word_ite (c := rhs = .int 1) h with ⟨rfl, hWord⟩ | hRest
      · simp only [BinaryOp.word, resultWord]
        rw [hConstants, idivWord_one]
        exact hWord
      · cases hRest
    case and =>
      rcases word_ite (c := lhs = .int 0 ∨ rhs = .int 0) h with ⟨rfl | rfl, hWord⟩ | hRest
      · cases hWord
        rw [hConstants]
        exact congrArg some BitVec.zero_and
      · cases hWord
        rw [hConstants]
        exact congrArg some BitVec.and_zero
      rcases word_ite (c := rhs = .int (-1)) hRest with ⟨rfl, hWord⟩ | hRest
      · cases hWord
        rw [hConstants]
        exact congrArg some BitVec.and_allOnes
      rcases word_ite (c := lhs = .int (-1)) hRest with ⟨rfl, hWord⟩ | hRest
      · cases hWord
        rw [hConstants]
        exact congrArg some BitVec.allOnes_and
      · cases hRest
    all_goals cases h
  | logicalAnd => cases h
  | logicalOr => cases h

/-- **The folder and the code of two operands**, on the words that they have. -/
theorem fold_word_iff {width : Nat} (hWidth : ∀ a b, lhs = .int a → rhs = .int b → width = 8)
    (hEqual : irOperandEquals lhs rhs = true → value lhs = value rhs)
    (h : (irTryFoldIntegerBinary op.text lhs rhs).word value = some r) :
    op.word width (value lhs) (value rhs) = some r ↔
      ¬ (op = .logicalAnd ∧ DisjointConstants lhs rhs) := by
  rcases word_ite h with ⟨hUnchanged, h⟩ | h
  · -- the constants say nothing
    have hNot : ¬ (op = .logicalAnd ∧ DisjointConstants lhs rhs) := by
      rintro ⟨rfl, hDisjoint⟩
      cases lhs <;> cases rhs <;> first | exact hDisjoint | cases hUnchanged
    refine iff_of_true ?_ hNot
    rcases word_ite h with ⟨-, h⟩ | h
    · exact identity_word hConstants hLhs hRhs width h
    rcases word_ite h with ⟨hSame, h⟩ | h
    · rw [← hEqual hSame]
      exact equalOperands_word width h
    · cases h
  · cases lhs with
    | int a =>
      cases rhs with
      | int b =>
        rw [hWidth a b rfl rfl, hConstants, hConstants]
        simp only [foldConstants] at h
        split at h
        · rename_i result hResult
          cases h
          exact evaluate_word_iff hLhs hRhs hResult
        · cases h
        · cases h
      | _ => cases h
    | _ => cases h

end

end Folder

-- ---
-- Folded instructions
-- ---

variable {instruction : IRInstruction} {context : IntegerContext} {op : String}

section Folded

variable {state : X86State} {code : List X86}

theorem movedWord_mul (type : Option IntType) (x c : Word) :
    movedWord type (movedWord type x * c) = movedWord type (x * c) := by
  cases type with
  | none => rfl
  | some type =>
    by_cases hFour : type.bytes = 4
    · simp only [movedWord, hFour, if_true]
      have hLow : (extendScalar 4 type.signed x).toNat % 2 ^ 32 = x.toNat % 2 ^ 32 := by
        cases type.signed with
        | false =>
          rw [toNat_extendScalar_unsigned (by decide)]
          omega
        | true =>
          rw [toNat_extendScalar_signed (by decide)]
          omega
      rw [← hFour]
      apply extendScalar_congr
      rw [hFour, BitVec.toNat_mul, BitVec.toNat_mul,
        Nat.mod_mod_of_dvd _ (show 2 ^ (8 * 4) ∣ 2 ^ 64 by decide),
        Nat.mod_mod_of_dvd _ (show 2 ^ (8 * 4) ∣ 2 ^ 64 by decide), Nat.mul_mod, hLow, ← Nat.mul_mod]
    · simp [movedWord, hFour]

theorem storedWord_folded (hOwn : OwnRegisters context) {folded : Folded}
    {r : Word} (destination : IROperand)
    (hWord : folded.word (operandWord context state) = some r) :
    ∃ r', folded.word (placedWord context state destination) = some r' ∧
      storedWord context destination r' =
        storedWord context destination r := by
  cases folded with
  | unchanged => cases hWord
  | undefined => cases hWord
  | assignInt result => exact ⟨r, hWord, rfl⟩
  | assignOperand operand =>
    cases hWord
    refine ⟨_, rfl, ?_⟩
    rcases placedWord_cases hOwn state destination operand with
      hSame | ⟨name, register, rfl, hAssigned, hMoved⟩
    · rw [hSame]
    · simp only [storedWord, hAssigned, hMoved, movedWord_idem]
  | shiftLeft operand shift =>
    cases hWord
    refine ⟨_, rfl, ?_⟩
    rcases placedWord_cases hOwn state destination operand with
      hSame | ⟨name, register, rfl, hAssigned, hMoved⟩
    · rw [hSame]
    · have hMul : ∀ x : Word, ShiftOp.shl.apply x shift = x * BitVec.ofInt 64 (2 ^ (shift % 64)) := by
        intro x
        rw [← shlImm_eq_mul x (Nat.mod_lt shift (by decide)), ShiftOp.apply, ShiftOp.apply,
          Nat.mod_mod]
      simp only [storedWord, hAssigned, hMoved, hMul, movedWord_mul]

theorem storedWord_bool (context : BinaryFunctionContext) (destination : IROperand) :
    storedWord context destination 0 ≠ storedWord context destination 1 := by
  cases destination with
  | symbol name =>
    cases hRegister : context.assignedRegister name <;> cases hType : context.symbolType name with
    | none => simp [storedWord, hRegister, hType, movedWord]
    | some type => cases type <;> simp [storedWord, hRegister, hType, movedWord] <;> decide
  | _ => simp [storedWord]

theorem equals_word (value : IROperand → Word) {lhs rhs : IROperand}
    (hFloats : ∀ bits width, value (.float bits width) = 0)
    (h : irOperandEquals lhs rhs = true) : value lhs = value rhs := by
  cases lhs <;> cases rhs <;> simp only [irOperandEquals, beq_iff_eq, reduceCtorEq] at h
  all_goals first | rw [h] | rw [hFloats, hFloats] | rfl

theorem exists_binaryOp {lhs rhs : IROperand}
    (h : irTryFoldIntegerBinary op lhs rhs ≠ .unchanged) : ∃ known : BinaryOp, known.text = op := by
  by_contra hUnknown
  rw [not_exists] at hUnknown
  have hTexts : ∀ known : BinaryOp, ¬ op = known.text := fun known hText => hUnknown known hText.symm
  have hAdd := hTexts (.arith .add)
  have hSub := hTexts (.arith .sub)
  have hMul := hTexts (.arith .mul)
  have hDiv := hTexts (.arith .div)
  have hMod := hTexts (.arith .mod)
  have hShl := hTexts (.arith .shl)
  have hShr := hTexts (.arith .shr)
  have hAnd := hTexts (.arith .and)
  have hOr := hTexts (.arith .or)
  have hXor := hTexts (.arith .xor)
  have hEq := hTexts (.arith .eq)
  have hNe := hTexts (.arith .ne)
  have hLt := hTexts (.arith .lt)
  have hLe := hTexts (.arith .le)
  have hGt := hTexts (.arith .gt)
  have hGe := hTexts (.arith .ge)
  have hLogicalAnd := hTexts .logicalAnd
  have hLogicalOr := hTexts .logicalOr
  simp only [BinaryOp.text, IntegerOp.text] at *
  have hEvaluate : ∀ a b, irTryEvaluateIntegerBinary op a b = .left := by
    intro a b
    simp [irTryEvaluateIntegerBinary, hAdd, hSub, hMul, hDiv, hMod, hShl, hShr, hAnd, hOr, hXor,
      hEq, hNe, hLt, hLe, hGt, hGe, hLogicalAnd, hLogicalOr]
  have hConstants : foldConstants op lhs rhs = .unchanged := by
    unfold foldConstants
    split
    · rw [hEvaluate]
    · rfl
  have hEqual : foldEqualOperands op lhs = .unchanged := by
    simp [foldEqualOperands, hSub, hXor, hOr, hAnd, hEq, hLe, hGe, hNe, hLt, hGt]
  have hIdentity : foldIdentity op lhs rhs = .unchanged := by
    simp [foldIdentity, hAdd, hSub, hMul, hDiv, hMod, hAnd, hOr, hXor, hShl, hShr]
  apply h
  simp [irTryFoldIntegerBinary, Folded.orElse, hConstants, hEqual, hIdentity]

theorem fold_logicalAnd (ha : a ≠ 0) (hb : b ≠ 0) :
    (irTryFoldIntegerBinary BinaryOp.logicalAnd.text (.int a) (.int b)).word value = some 1 := by
  have hEvaluate : irTryEvaluateIntegerBinary "&&" a b = .ofBool (a != 0 && b != 0) := rfl
  have hTrue : (a != 0 && b != 0) = true := by simp [ha, hb]
  rw [hTrue] at hEvaluate
  simp only [irTryFoldIntegerBinary, BinaryOp.text, foldConstants, hEvaluate, Evaluated.ofBool]
  rfl

/-- **When a folded value is the computed one.** -/
theorem fold_executes_iff (hOwn : OwnRegisters context)
    (state : X86State) (hText : instruction.text = some op)
    (hDestination : instruction.dest ≠ .none) (hLhs : Fits64 instruction.lhs)
    (hRhs : Fits64 instruction.rhs) (hCode : emitBinaryInteger context instruction = some code)
    {r : Word} (hWord : (irTryFoldIntegerBinary op instruction.lhs instruction.rhs).word
      (operandWord context state) = some r) :
    (∃ final, executeCode context.globalAddress state code = some final ∧
        homeWord context final instruction.dest = storedWord context instruction.dest r) ↔
      ¬ (op = "&&" ∧ DisjointConstants instruction.lhs instruction.rhs) := by
  obtain ⟨known, rfl⟩ : ∃ known : BinaryOp, known.text = op := by
    apply exists_binaryOp
    intro hUnchanged
    rw [hUnchanged] at hWord
    cases hWord
  have hKnown : known.text = "&&" ↔ known = .logicalAnd := by
    constructor
    · intro h
      cases known with
      | arith op => cases op <;> simp [BinaryOp.text, IntegerOp.text] at h
      | logicalAnd => rfl
      | logicalOr => simp [BinaryOp.text] at h
    · rintro rfl
      rfl
  rw [hKnown]
  obtain ⟨value, hValue, hRun⟩ := emitBinaryInteger_executes state hText hDestination hRhs hCode
  -- both readings of the operands store the same
  obtain ⟨r', hFolded, hStored⟩ : ∃ r',
      (irTryFoldIntegerBinary known.text instruction.lhs instruction.rhs).word value = some r' ∧
      storedWord context instruction.dest r' = storedWord context instruction.dest r := by
    rcases hValue with rfl | rfl
    · exact ⟨r, hWord, rfl⟩
    · exact storedWord_folded hOwn instruction.dest hWord
  have hConstants : OfConstants value := by
    intro c
    rcases hValue with rfl | rfl <;> rfl
  have hFloats : ∀ bits width, value (.float bits width) = 0 := by
    intro bits width
    rcases hValue with rfl | rfl <;> rfl
  have hWidth : ∀ a b, instruction.lhs = .int a → instruction.rhs = .int b →
      compareWidth context instruction.lhs instruction.rhs = 8 := by
    intro a b hA hB
    rw [hA, hB]
    rfl
  have hIff := fold_word_iff hConstants hLhs hRhs hWidth (equals_word value hFloats) hFolded
  rw [← hIff]
  rw [← map_eq_some_iff (f := (homeWord context ·
    instruction.dest)), hRun, ← hStored]
  constructor
  · intro hSome
    by_contra hNot
    rw [hIff, not_not] at hNot
    obtain ⟨rfl, hDisjoint⟩ := hNot
    obtain ⟨a, b, hA, hB⟩ : ∃ a b, instruction.lhs = .int a ∧ instruction.rhs = .int b := by
      generalize instruction.lhs = lhs at hDisjoint
      generalize instruction.rhs = rhs at hDisjoint
      cases lhs <;> cases rhs <;> first | exact ⟨_, _, rfl, rfl⟩ | exact hDisjoint.elim
    rw [hA, hB] at hDisjoint hFolded hSome
    obtain rfl : 1 = r' :=
      some.inj ((fold_logicalAnd hDisjoint.1 hDisjoint.2.1).symm.trans hFolded)
    simp only [BinaryOp.word, hConstants a, hConstants b] at hSome
    rw [if_pos hDisjoint.2.2] at hSome
    exact storedWord_bool _ _ (some.inj hSome)
  · intro hSome
    rw [hSome, map_some]

end Folded

theorem unary_fold_word {c result : Int} (hFits : IsLongLong c)
    (hFold : irTryFoldIntegerUnary op c = some result) :
    unaryWord op (BitVec.ofInt 64 c) = some (BitVec.ofInt 64 result) := by
  unfold irTryFoldIntegerUnary at hFold
  split at hFold
  · subst op
    cases hFold
    rfl
  split at hFold
  · subst op
    cases hFold
    rw [toLongLong, BitVec.ofInt_toInt]
    rfl
  split at hFold
  · subst op
    cases hFold
    show some (if BitVec.ofInt 64 c = (0 : Word) then (1 : Word) else 0) = _
    by_cases hZero : c = 0
    · rw [if_pos ((ofInt_eq_zero_iff hFits).mpr hZero), if_pos hZero]
      rfl
    · rw [if_neg (fun h => hZero ((ofInt_eq_zero_iff hFits).mp h)), if_neg hZero]
      rfl
  split at hFold
  · subst op
    cases hFold
    rw [toLongLong, BitVec.ofInt_toInt]
    rfl
  · cases hFold

-- ---
-- Tests for zero
-- ---

def comparedTemp (compare : IRInstruction) : Option String :=
  if compare.text = some "==" ∨ compare.text = some "!=" then
    match compare.lhs, compare.rhs with
    | .temp name, .int 0 => some name
    | .int 0, .temp name => some name
    | _, _ => none
  else none

/-- `ir_try_rewrite_mod_pow2_compare_zero`, of the instruction that computes what is compared:
a remainder by a power of two is a conjunction with a mask. -/
def irRewriteModPow2 (producer : IRInstruction) : Option IRInstruction :=
  match producer.text, producer.rhs with
  | some "%", .int c =>
    (irTryGetPositivePow2Shift c).bind fun shift =>
      if 0 < shift ∧ shift < 63 then
        some { producer with rhs := .int (2 ^ shift - 1), text := some "&" }
      else none
  | _, _ => none

theorem remainder_eq_zero_iff {k : Nat} (hk : k ≤ 62) :
    wordOf (x.toInt.tmod (2 ^ k)) = 0 ↔ (x &&& BitVec.ofInt 64 (2 ^ k - 1) : Word) = 0 := by
  obtain ⟨hOne, hMax⟩ := pow_bounds hk
  have hSmall : IsLongLong (x.toInt.tmod (2 ^ k)) :=
    inRange_tmod (show IntType.int64.InRange x.toInt from ⟨x.le_toInt, x.toInt_lt⟩) _
  have hMask : (BitVec.ofInt 64 (2 ^ k - 1) : Word).toNat = 2 ^ k - 1 := by
    have hPow : ((2 : Int) ^ k) = ((2 ^ k : Nat) : Int) := by norm_cast
    rw [BitVec.toNat_ofInt]
    omega
  have hMasked : (x &&& BitVec.ofInt 64 (2 ^ k - 1) : Word) = 0 ↔ x.toNat % 2 ^ k = 0 := by
    rw [← BitVec.toNat_inj, BitVec.toNat_and, hMask, Nat.and_two_pow_sub_one_eq_mod]
    rfl
  -- the signed and the unsigned number of a word differ by a multiple of the power
  have hNumbers : ((2 : Int) ^ k ∣ x.toInt) ↔ ((2 : Int) ^ k ∣ (x.toNat : Int)) := by
    have hWrap : ((2 : Int) ^ k) ∣ 2 ^ 64 := pow_dvd_pow 2 (by omega)
    rw [BitVec.toInt_eq_toNat_cond]
    split
    · rfl
    · refine Int.dvd_iff_dvd_of_dvd_sub ?_
      rw [show (x.toNat : Int) - ((2 ^ 64 : Nat) : Int) - x.toNat = -2 ^ 64 by omega]
      exact (Int.dvd_neg).mpr hWrap
  calc wordOf (x.toInt.tmod (2 ^ k)) = 0 ↔ x.toInt.tmod (2 ^ k) = 0 := ofInt_eq_zero_iff hSmall
    _ ↔ (2 : Int) ^ k ∣ x.toInt := (Int.dvd_iff_tmod_eq_zero).symm
    _ ↔ (2 : Int) ^ k ∣ (x.toNat : Int) := hNumbers
    _ ↔ x.toNat % 2 ^ k = 0 := by
      rw [← Nat.dvd_iff_mod_eq_zero, ← Int.natCast_dvd_natCast]
      norm_cast
    _ ↔ (x &&& BitVec.ofInt 64 (2 ^ k - 1) : Word) = 0 := hMasked.symm

variable {compare : IRInstruction} {code : List X86} {name : String} (state : X86State)

section Zero

theorem compareZero_word {op : IntegerOp} (hOp : op = .eq ∨ op = .ne) {x y : Word}
    (h : x = 0 ↔ y = 0) : resultWord op 8 x 0 = resultWord op 8 y 0 := by
  have hFlags : (emitRegRegCompare x 0 8).zero = (emitRegRegCompare y 0 8).zero := by
    show (x == 0) = (y == 0)
    rw [Bool.eq_iff_iff, beq_iff_eq, beq_iff_eq]
    exact h
  rcases hOp with rfl | rfl
  · show some (if (emitRegRegCompare x 0 8).zero = true then (1 : Word) else 0) = _
    rw [hFlags]
    rfl
  · show some (if (!(emitRegRegCompare x 0 8).zero) = true then (1 : Word) else 0) = _
    rw [hFlags]
    rfl

theorem comparedTemp_executes (hCompared : comparedTemp compare = some name)
    (hDestination : compare.dest ≠ .none) (hCode : emitBinaryInteger context compare = some code) :
    ∃ op : IntegerOp, (op = .eq ∨ op = .ne) ∧ ∀ state : X86State,
      (executeCode context.globalAddress state code).map (homeWord context · compare.dest) =
        (resultWord op 8 (homeWord context state (.temp name)) 0).map
          (storedWord context compare.dest) := by
  unfold comparedTemp at hCompared
  split at hCompared
  case isFalse => cases hCompared
  rename_i hText
  obtain ⟨op, hOp, hOpText⟩ : ∃ op : IntegerOp, (op = .eq ∨ op = .ne) ∧
      compare.text = some op.text := by
    rcases hText with h | h
    · exact ⟨.eq, Or.inl rfl, h⟩
    · exact ⟨.ne, Or.inr rfl, h⟩
  refine ⟨op, hOp, ?_⟩
  intro state
  replace hOpText : compare.text = some (BinaryOp.arith op).text := hOpText
  have hCommutative : isCommutative (BinaryOp.arith op).text = true := by
    rcases hOp with rfl | rfl <;> rfl
  split at hCompared
  · rename_i hLhs hRhs
    cases hCompared
    obtain ⟨value, hValue, hRun⟩ := emitBinaryInteger_executes state hOpText
      hDestination (by rw [hRhs]; exact ⟨by decide, by decide⟩) hCode
    rw [hRun, hLhs, hRhs]
    rcases hValue with rfl | rfl <;> rfl
  · rename_i hLhs hRhs
    cases hCompared
    obtain ⟨value, hValue, hRun⟩ := emitBinaryInteger_executes state hOpText
      hDestination (by rw [hRhs]; trivial) hCode
    rw [hRun, hLhs, hRhs, word_comm hCommutative]
    rcases hValue with rfl | rfl <;> rfl
  · cases hCompared

theorem irRewriteModPow2_eq_some {producer masked : IRInstruction}
    (h : irRewriteModPow2 producer = some masked) :
    ∃ shift ≤ 62, producer.text = some (BinaryOp.arith .mod).text ∧
      producer.rhs = .int (2 ^ shift) ∧ masked.text = some (BinaryOp.arith .and).text ∧
      masked.rhs = .int (2 ^ shift - 1) ∧ masked.lhs = producer.lhs ∧
      masked.dest = producer.dest := by
  unfold irRewriteModPow2 at h
  split at h
  case h_2 => cases h
  rename_i c hText hRhs
  obtain ⟨shift, hShift, hMasked⟩ := bind_eq_some_iff.mp h
  split at hMasked
  case isFalse => cases hMasked
  obtain rfl := eq_pow_of_extract hShift
  cases hMasked
  exact ⟨shift, by omega, hText, hRhs, rfl, rfl, rfl, rfl⟩

/-- **The rewritten remainder.** -/
theorem modPow2_agrees {producer masked : IRInstruction} {maskedCode compareCode : List X86}
    (hCompared : comparedTemp compare = some name) (hDestination : compare.dest ≠ .none)
    (hTemp : producer.dest = .temp name) (hFits : Fits64 producer.rhs)
    (hRewrite : irRewriteModPow2 producer = some masked)
    (hCode : emitBinaryInteger context producer = some code)
    (hMaskedCode : emitBinaryInteger context masked = some maskedCode)
    (hCompareCode : emitBinaryInteger context compare = some compareCode) :
    ∃ final final', executeCode context.globalAddress state code = some final ∧
      executeCode context.globalAddress state maskedCode = some final' ∧
      ∀ later later' : X86State, homeWord context later (.temp name) =
          homeWord context final (.temp name) →
        homeWord context later' (.temp name) = homeWord context final' (.temp name) →
        (executeCode context.globalAddress later' compareCode).map
            (homeWord context · compare.dest) =
          (executeCode context.globalAddress later compareCode).map
            (homeWord context · compare.dest) := by
  obtain ⟨shift, hShift, hText, hRhs, hMaskedText, hMaskedRhs, hMaskedLhs, hMaskedDest⟩ :=
    irRewriteModPow2_eq_some hRewrite
  obtain ⟨hOne, hMax⟩ := pow_bounds hShift
  have hMaskedFits : Fits64 masked.rhs := by
    rw [hMaskedRhs]
    exact ⟨by omega, by omega⟩
  have hRemainder := emitBinaryInteger_temp state hText hTemp hFits hCode
  have hConjunction := emitBinaryInteger_temp state hMaskedText (hMaskedDest.trans hTemp)
    hMaskedFits hMaskedCode
  have hDivisor : (BitVec.ofInt 64 (2 ^ shift) : Word).toInt = 2 ^ shift := by
    rw [BitVec.toInt_ofInt]
    exact Int.bmod_eq_of_le (by omega) (by omega)
  have hNonzero : BitVec.ofInt 64 (2 ^ shift) ≠ (0 : Word) := by
    intro hZero
    rw [hZero] at hDivisor
    have : (0 : Word).toInt = 0 := rfl
    omega
  generalize hx : operandWord context state producer.lhs = x at hRemainder
  rw [hRhs] at hRemainder
  simp only [BinaryOp.word, resultWord, operandWord] at hRemainder
  rw [idivWord_eq _ _ hNonzero, hDivisor, if_neg (by omega)] at hRemainder
  rw [hMaskedRhs, hMaskedLhs, hx] at hConjunction
  obtain ⟨final, hFinal, hWord⟩ := map_eq_some_iff.mp hRemainder
  obtain ⟨final', hFinal', hWord'⟩ := map_eq_some_iff.mp hConjunction
  refine ⟨final, final', hFinal, hFinal', ?_⟩
  intro later later' hKept hKept'
  obtain ⟨op, hOp, hRun⟩ := comparedTemp_executes hCompared hDestination hCompareCode
  rw [hRun later', hRun later, hKept, hKept', hWord, hWord']
  exact congrArg (Option.map _) (compareZero_word hOp (remainder_eq_zero_iff x hShift)).symm

-- ---
-- Branches
-- ---

/-- The operand that `ir_branch_zero_not_equal_zero_forwarding_pass` tests in the place of a
comparison. -/
def forwardedOperand (compare : IRInstruction) : Option IROperand :=
  if compare.text = some "!=" then
    match compare.lhs, compare.rhs with
    | lhs, .int 0 => some lhs
    | .int 0, rhs => some rhs
    | _, _ => none
  else none

/-- **A test of a comparison with 0 is a test of the operand.** -/
theorem forward_agrees {operand : IROperand} {testCode forwardCode : List X86}
    (hForward : forwardedOperand compare = some operand) (hTemp : compare.dest = .temp name)
    (hFits : Fits64 compare.rhs) (hCode : emitBinaryInteger context compare = some code)
    (hTest : emitBranchZeroTest context (.temp name) = some testCode)
    (hForwardTest : emitBranchZeroTest context operand = some forwardCode) :
    ∃ final, executeCode context.globalAddress state code = some final ∧
      jumpTaken context.globalAddress state forwardCode =
        jumpTaken context.globalAddress final testCode := by
  have hWord : ∀ x : Word, resultWord .ne 8 x 0 = some (if x = 0 then 0 else 1) := by
    intro x
    show some (if (!(x == 0)) = true then (1 : Word) else 0) = _
    simp
  unfold forwardedOperand at hForward
  split at hForward
  case isFalse => cases hForward
  rename_i hText
  replace hText : compare.text = some (BinaryOp.arith .ne).text := hText
  have hRun := emitBinaryInteger_temp state hText hTemp hFits hCode
  have hLeft : (executeCode context.globalAddress state code).map
      (homeWord context · (.temp name)) =
      some (if operandWord context state operand = 0 then 0 else 1) := by
    rw [hRun]
    split at hForward
    · rename_i hRhs
      cases hForward
      rw [hRhs, compareWidth_int_right]
      exact hWord _
    · rename_i hLhs _
      cases hForward
      rw [hLhs, compareWidth_int_left, word_comm rfl]
      exact hWord _
    · cases hForward
  obtain ⟨final, hFinal, hHome⟩ := map_eq_some_iff.mp hLeft
  refine ⟨final, hFinal, ?_⟩
  rw [branchZero_taken state hForwardTest, branchZero_taken final hTest]
  show _ = some (homeWord context final (.temp name) == 0)
  rw [hHome]
  simp

/-- `ir_simplify_branch`: whether a branch is a jump or nothing. -/
def irSimplifyBranch (instruction : IRInstruction) : Option Bool :=
  match instruction.op, instruction.lhs, instruction.rhs with
  | .branchZero, .int a, _ => some (a == 0)
  | .branchEq, .int a, .int b => some (a == b)
  | .branchEq, lhs, rhs => if irOperandEquals lhs rhs then some true else none
  | _, _, _ => none

/-- **A branch that is decided.** -/
theorem simplifyBranch_agrees {taken : Bool}
    (hLhs : Fits64 instruction.lhs) (hRhs : Fits64 instruction.rhs)
    (hSimplify : irSimplifyBranch instruction = some taken)
    (hCode : emitBranchTest context instruction = some code) :
    jumpTaken context.globalAddress state code = some taken := by
  unfold irSimplifyBranch at hSimplify
  unfold emitBranchTest at hCode
  split at hSimplify
  · rename_i a hOp hA
    rw [hOp, hA] at hCode
    rw [hA] at hLhs
    rw [branchZero_taken state hCode, ← hSimplify, some.injEq, Bool.eq_iff_iff,
      beq_iff_eq, beq_iff_eq]
    exact ofInt_eq_zero_iff hLhs
  · rename_i a b hOp hA hB
    rw [hOp, hA, hB] at hCode
    rw [hA] at hLhs
    rw [hB] at hRhs
    rw [branchEq_taken state hCode, ← hSimplify, some.injEq, Bool.eq_iff_iff, beq_iff_eq]
    show (BitVec.ofInt 64 a == BitVec.ofInt 64 b) = true ↔ a = b
    rw [beq_iff_eq]
    constructor
    · intro hWords
      have hMod := (wordOf_eq_iff a b).mp hWords
      unfold Fits64 IsLongLong at hLhs hRhs
      omega
    · rintro rfl
      rfl
  · rename_i hOp _
    rw [hOp] at hCode
    split at hSimplify
    · rename_i hEqual
      rw [branchEq_taken state hCode, ← hSimplify, equals_word (operandWord context state)
          (fun _ _ => rfl) hEqual, emitRegRegCompare_self]
    · cases hSimplify
  · cases hSimplify

end Zero

-- ---
-- Folding and execution
-- ---

/-- **Constant folding and execution.** Nothing without a meaning is evaluated. A folded value
is the one that the code of the instruction leaves, except for `&&` of two constants that are
true and share no bit: the folder takes it for true and the code for false. The other rewrites
agree with the code on every word. -/
theorem constant_fold_agrees_iff (context : IntegerContext) (state : X86State)
    (hOwn : OwnRegisters context.toBinaryFunctionContext) :
    (∀ (instruction : IRInstruction) (op : String) (code : List X86),
      instruction.text = some op → instruction.dest ≠ .none →
      Fits64 instruction.lhs → Fits64 instruction.rhs →
      emitBinaryInteger context instruction = some code →
      irTryFoldIntegerBinary op instruction.lhs instruction.rhs ≠ .undefined ∧
      ∀ r, (irTryFoldIntegerBinary op instruction.lhs instruction.rhs).word
          (operandWord context.toBinaryFunctionContext state) = some r →
        ((∃ final, executeCode context.globalAddress state code = some final ∧
            homeWord context.toBinaryFunctionContext final instruction.dest =
              storedWord context.toBinaryFunctionContext instruction.dest r) ↔
          ¬ (op = "&&" ∧ DisjointConstants instruction.lhs instruction.rhs))) ∧
    (∀ (instruction : IRInstruction) (op : String) (c result : Int) (code : List X86),
      instruction.text = some op → instruction.dest ≠ .none →
      instruction.lhs = .int c → IsLongLong c → irTryFoldIntegerUnary op c = some result →
      emitUnary context.toBinaryFunctionContext instruction = some code →
      ∃ final, executeCode context.globalAddress state code = some final ∧
        homeWord context.toBinaryFunctionContext final instruction.dest =
          storedWord context.toBinaryFunctionContext instruction.dest (BitVec.ofInt 64 result)) ∧
    (∀ (compare producer masked : IRInstruction) (name : String)
      (code maskedCode compareCode : List X86),
      comparedTemp compare = some name → compare.dest ≠ .none → producer.dest = .temp name →
      Fits64 producer.rhs → irRewriteModPow2 producer = some masked →
      emitBinaryInteger context producer = some code →
      emitBinaryInteger context masked = some maskedCode →
      emitBinaryInteger context compare = some compareCode →
      ∃ final final', executeCode context.globalAddress state code = some final ∧
        executeCode context.globalAddress state maskedCode = some final' ∧
        ∀ later later' : X86State, homeWord context.toBinaryFunctionContext later (.temp name) =
            homeWord context.toBinaryFunctionContext final (.temp name) →
          homeWord context.toBinaryFunctionContext later' (.temp name) =
            homeWord context.toBinaryFunctionContext final' (.temp name) →
          (executeCode context.globalAddress later' compareCode).map
              (homeWord context.toBinaryFunctionContext · compare.dest) =
            (executeCode context.globalAddress later compareCode).map
              (homeWord context.toBinaryFunctionContext · compare.dest)) ∧
    (∀ (compare : IRInstruction) (operand : IROperand) (name : String)
      (code testCode forwardCode : List X86),
      forwardedOperand compare = some operand → compare.dest = .temp name →
      Fits64 compare.rhs → emitBinaryInteger context compare = some code →
      emitBranchZeroTest context.toBinaryFunctionContext (.temp name) = some testCode →
      emitBranchZeroTest context.toBinaryFunctionContext operand = some forwardCode →
      ∃ final, executeCode context.globalAddress state code = some final ∧
        jumpTaken context.globalAddress state forwardCode =
          jumpTaken context.globalAddress final testCode) ∧
    (∀ (instruction : IRInstruction) (taken : Bool) (code : List X86),
      Fits64 instruction.lhs → Fits64 instruction.rhs →
      irSimplifyBranch instruction = some taken →
      emitBranchTest context instruction = some code →
      jumpTaken context.globalAddress state code = some taken) := by
  refine ⟨?_, ?_, ?_, ?_, ?_⟩
  · intro instruction op code hText hDestination hLhs hRhs hCode
    exact ⟨irTryFoldIntegerBinary_defined op _ _, fun r hWord =>
      fold_executes_iff hOwn state hText hDestination hLhs hRhs hCode hWord⟩
  · intro instruction op c result code hText hDestination hLhs hFits hFold hCode
    have hRun := emitUnary_executes state hText hDestination hCode
    rw [hLhs, show operandWord context.toBinaryFunctionContext state (.int c) =
      BitVec.ofInt 64 c from rfl, unary_fold_word hFits hFold, map_some] at hRun
    exact map_eq_some_iff.mp hRun
  · intro compare producer masked name code maskedCode compareCode hCompared hDestination hTemp
      hFits hRewrite hCode hMaskedCode hCompareCode
    exact modPow2_agrees state hCompared hDestination hTemp hFits hRewrite hCode hMaskedCode
      hCompareCode
  · intro compare operand name code testCode forwardCode hForward hTemp hFits hCode hTest hForwarded
    exact forward_agrees state hForward hTemp hFits hCode hTest hForwarded
  · intro instruction taken code hLhs hRhs hSimplify hCode
    exact simplifyBranch_agrees state hLhs hRhs hSimplify hCode

def constantsOf (op : BinaryOp) (a b : Int) : IRInstruction :=
  { op := .binary, dest := .temp "t", lhs := .int a, rhs := .int b, text := some op.text }

/-- `2 && 6`, which share a bit. -/
theorem constant_fold_agrees_sharedBit :
    ∃ code final, emitBinaryInteger (twoLocalsContext .int64) (constantsOf .logicalAnd 2 6) =
        some code ∧
      executeCode (twoLocalsContext .int64).globalAddress (twoLocalsState 0 0) code = some final ∧
      homeWord (twoLocalsContext .int64).toBinaryFunctionContext final (.temp "t") = 1 := by
  have hFolds := (constant_fold_agrees_iff (twoLocalsContext .int64) (twoLocalsState 0 0)
    (fun _ _ _ h => nomatch h)).1 (constantsOf .logicalAnd 2 6) "&&" _ rfl nofun
    ⟨by decide, by decide⟩ ⟨by decide, by decide⟩ rfl
  obtain ⟨final, hRun, hHome⟩ := (hFolds.2 1 rfl).mpr (by decide)
  exact ⟨_, final, rfl, hRun, hHome⟩

/-- **`1 && 2`.** The folder assigns 1, and the code leaves 0. -/
theorem logicalAnd_folds_otherwise : irTryFoldIntegerBinary "&&" (.int 1) (.int 2) = .assignInt 1 ∧
      ∃ code final, emitBinaryInteger (twoLocalsContext .int64) (constantsOf .logicalAnd 1 2) =
          some code ∧
        executeCode (twoLocalsContext .int64).globalAddress (twoLocalsState 0 0) code = some final ∧
        homeWord (twoLocalsContext .int64).toBinaryFunctionContext final (.temp "t") = 0 := by
  refine ⟨by decide, _, _, rfl, rfl, ?_⟩
  decide

end Mettle.Codegen
