import Mathlib.Order.Nat
import Mettle.IR.Lowering
import Mettle.IR.Semantics
import Mettle.Lib.StateExcept

/-!
# Mettle — what lowering an expression emits

Lowering only appends code. What the new code writes by name is a temp that was
numbered on the way, a local that lowering made for itself, or the binding of a
match inside the expression; and its jumps and labels are labels numbered on the
way. `Extends` says this of two states and `Lowers` of an action; each piece of
code of the lowering gets its rule, and `lowerExpression_frames` assembles them
by induction on the expression.
-/

namespace Mettle.IR

open Mettle.Lib List
open Mettle.Parser
open Mettle.Semantic (Ty Symbol)

-- ---
-- Generated names
-- ---

variable {a b : Nat}

theorem toDigits_injective (h : Nat.toDigits 10 a = Nat.toDigits 10 b) : a = b := by
  have hValue := congrArg (fun digits => Nat.ofDigitChars 10 digits 0) h
  simpa only [Nat.ofDigitChars_ten_toDigits] using hValue

theorem cut_at_underscore {front front' back back' : List Char} (hBack : '_' ∉ back)
    (hBack' : '_' ∉ back') (h : front ++ '_' :: back = front' ++ '_' :: back') : back = back' := by
  induction front generalizing front' with
  | nil =>
    cases front' with
    | nil => exact (cons.inj h).2
    | cons c cs =>
      obtain ⟨-, hTail⟩ := cons.inj h
      rw [hTail] at hBack
      simp at hBack
  | cons c cs ih =>
    cases front' with
    | nil =>
      obtain ⟨-, hTail⟩ := cons.inj h
      rw [← hTail] at hBack'
      simp at hBack'
    | cons c' cs' => exact ih (cons.inj h).2

theorem tempName_number (h : tempName a = tempName b) : a = b := by
  have hList := congrArg String.toList h
  simp only [tempName, String.toList_append, Nat.toString_eq_repr, Nat.toList_repr] at hList
  exact toDigits_injective (append_cancel_left hList)

theorem labelName_number {stem stem' : String} (h : labelName stem a = labelName stem' b) :
    a = b := by
  have hList := congrArg String.toList h
  simp only [labelName, String.toList_append, Nat.toString_eq_repr, Nat.toList_repr,
    append_assoc] at hList
  have hCut : ("ir_".toList ++ stem.toList) ++ '_' :: Nat.toDigits 10 a =
      ("ir_".toList ++ stem'.toList) ++ '_' :: Nat.toDigits 10 b := by
    simpa using hList
  exact toDigits_injective (cut_at_underscore Nat.underscore_not_in_toDigits
    Nat.underscore_not_in_toDigits hCut)

-- ---
-- The frame
-- ---

def NewName (base s : Lowering) (x : String) : Prop :=
  ∃ stem k, x = labelName stem k ∧ base.nextLabelId ≤ k ∧ k < s.nextLabelId

/-- What the code emitted since `base` may write: temps and names made since, and
the given ones. -/
def Owned (base s : Lowering) (names : List Name) : IROperand → Prop
  | .temp t => ∃ k, t = tempName k ∧ base.nextTempId ≤ k ∧ k < s.nextTempId
  | .symbol x => NewName base s x ∨ x ∈ names
  | _ => True

def NewTemp (base s : Lowering) (operand : IROperand) : Prop :=
  ∃ k, operand = .temp (tempName k) ∧ base.nextTempId ≤ k ∧ k < s.nextTempId

def IROpcode.jumps : IROpcode → Bool
  | .jump | .branchZero | .branchEq => true
  | _ => false

/-- An instruction that keeps to what was made since `base`. -/
structure Confined (base s : Lowering) (names : List Name) (instruction : IRInstruction) :
    Prop where
  writes : ∀ operand ∈ instruction.writes, Owned base s names operand
  notAsm : instruction.op ≠ .inlineAsm
  label : instruction.op = .label → ∃ x, instruction.text = some x ∧ NewName base s x
  jump : instruction.op.jumps = true → ∃ x, instruction.text = some x ∧ NewName base s x

/-- The numbers given so far. -/
structure Before (base s : Lowering) : Prop where
  temps : base.nextTempId ≤ s.nextTempId
  labels : base.nextLabelId ≤ s.nextLabelId

/-- Lowering has gone from `s` to `s'`: it appended confined code. -/
structure Extends (base : Lowering) (names : List Name) (s s' : Lowering) : Prop where
  before : Before s s'
  code : ∃ added, s'.code = s.code ++ added ∧
    ∀ instruction ∈ added, Confined base s' names instruction

theorem Before.refl (s : Lowering) : Before s s := ⟨le_refl _, le_refl _⟩

theorem Before.trans {a b c : Lowering} (h : Before a b) (h' : Before b c) : Before a c :=
  ⟨h.temps.trans h'.temps, h.labels.trans h'.labels⟩

variable {operand : IROperand} {instruction : IRInstruction} {names : List Name}

section Monotone

variable {base base' s s' s'' : Lowering} {names' : List Name}

section

variable (hBase : Before base' base) (hAfter : Before s s')
include hBase hAfter

theorem NewName.mono {x : String} (h : NewName base s x) : NewName base' s' x := by
  obtain ⟨stem, k, hx, hLow, hHigh⟩ := h
  exact ⟨stem, k, hx, hBase.labels.trans hLow, hHigh.trans_le hAfter.labels⟩

theorem NewTemp.mono (h : NewTemp base s operand) : NewTemp base' s' operand := by
  obtain ⟨k, hk, hLow, hHigh⟩ := h
  exact ⟨k, hk, hBase.temps.trans hLow, hHigh.trans_le hAfter.temps⟩

theorem Owned.mono (hNames : names ⊆ names') (h : Owned base s names operand) :
    Owned base' s' names' operand := by
  cases operand with
  | temp t =>
    obtain ⟨k, hk, hLow, hHigh⟩ := h
    exact ⟨k, hk, hBase.temps.trans hLow, hHigh.trans_le hAfter.temps⟩
  | symbol x =>
    rcases h with hNew | hName
    · exact Or.inl (hNew.mono hBase hAfter)
    · exact Or.inr (hNames hName)
  | _ => trivial

theorem Confined.mono (hNames : names ⊆ names')
    (h : Confined base s names instruction) : Confined base' s' names' instruction := by
  refine ⟨?_, h.notAsm, ?_, ?_⟩
  · intro operand hOperand
    exact (h.writes operand hOperand).mono hBase hAfter hNames
  · intro hOp
    obtain ⟨x, hText, hNew⟩ := h.label hOp
    exact ⟨x, hText, hNew.mono hBase hAfter⟩
  · intro hOp
    obtain ⟨x, hText, hNew⟩ := h.jump hOp
    exact ⟨x, hText, hNew.mono hBase hAfter⟩

end

theorem Extends.refl (base : Lowering) (names : List Name) (s : Lowering) :
    Extends base names s s :=
  ⟨Before.refl s, [], by simp, by simp⟩

theorem Extends.trans (h : Extends base names s s') (h' : Extends base names s' s'') :
    Extends base names s s'' := by
  obtain ⟨added, hCode, hAdded⟩ := h.code
  obtain ⟨added', hCode', hAdded'⟩ := h'.code
  refine ⟨h.before.trans h'.before, added ++ added', ?_, ?_⟩
  · rw [hCode', hCode, append_assoc]
  · intro instruction hMem
    rcases mem_append.mp hMem with hLeft | hRight
    · exact (hAdded instruction hLeft).mono (Before.refl base) h'.before (List.Subset.refl names)
    · exact hAdded' instruction hRight

theorem Extends.mono (hBase : Before base' base) (hNames : names ⊆ names')
    (h : Extends base names s s') : Extends base' names' s s' := by
  obtain ⟨added, hCode, hAdded⟩ := h.code
  refine ⟨h.before, added, hCode, ?_⟩
  intro instruction hMem
  exact (hAdded instruction hMem).mono hBase (Before.refl s') hNames

end Monotone

-- ---
-- Rules
-- ---

/-- Where the action returns, it has only appended confined code, and the
postcondition holds. -/
def Lowers {α : Type} (base : Lowering) (names : List Name) (m : Lower α) (s : Lowering)
    (Q : α → Lowering → Prop) : Prop :=
  Before base s → Safe (fun _ => False) m s fun a s' => Extends base names s s' ∧ Q a s'

variable {message : String}

section Rules

variable {α β : Type} {base s : Lowering} {m : Lower α} {Q Q' : α → Lowering → Prop}

theorem Lowers.bind {f : α → Lower β} {R : β → Lowering → Prop} (h : Lowers base names m s Q)
    (hNext : ∀ a s', Before s s' → Q a s' → Lowers base names (f a) s' R) :
    Lowers base names (m >>= f) s R := by
  intro hBase
  refine Safe.bind (h hBase) ?_
  rintro a s' ⟨hExtends, hQ⟩
  refine (hNext a s' hExtends.before hQ (hBase.trans hExtends.before)).conseq ?_
  rintro b s'' ⟨hExtends', hR⟩
  exact ⟨hExtends.trans hExtends', hR⟩

theorem Lowers.pure {a : α} (h : Q a s) : Lowers base names (Pure.pure a : Lower α) s Q := by
  intro _
  exact Safe.pure ⟨Extends.refl base names s, h⟩

theorem Lowers.throw : Lowers base names (MonadExcept.throw message : Lower α) s Q := by
  intro _
  exact Safe.throw id

theorem Lowers.conseq (h : Lowers base names m s Q) (hPost : ∀ a s', Q a s' → Q' a s') :
    Lowers base names m s Q' := by
  intro hBase
  refine (h hBase).conseq ?_
  rintro a s' ⟨hExtends, hQ⟩
  exact ⟨hExtends, hPost a s' hQ⟩

theorem Lowers.run {a : α} {s' : Lowering} (h : Lowers s names m s Q) (hRun : m s = .ok (a, s')) :
    Extends s names s s' ∧ Q a s' := by
  have hSafe := h (Before.refl s)
  unfold Safe at hSafe
  rw [hRun] at hSafe
  exact hSafe

theorem emit_lowers (h : Confined base s names instruction) :
    Lowers base names (emit instruction) s fun _ _ => True := by
  intro _
  refine Safe.modify ⟨⟨⟨le_refl _, le_refl _⟩, [instruction], rfl, ?_⟩, trivial⟩
  have hAfter : Before s { s with code := s.code ++ [instruction] } := ⟨le_refl _, le_refl _⟩
  intro other hMem
  rw [mem_singleton] at hMem
  rw [hMem]
  exact h.mono (Before.refl base) hAfter (List.Subset.refl names)

theorem makeTempOperand_lowers :
    Lowers base names makeTempOperand s fun operand s' => NewTemp base s' operand := by
  intro hBase
  refine Safe.getBind (Safe.bind (Safe.set (Q := fun _ s' =>
    s' = { s with nextTempId := s.nextTempId + 1 }) rfl) ?_)
  rintro - s' rfl
  refine Safe.pure ⟨⟨⟨Nat.le_succ _, le_refl _⟩, [], by simp, by simp⟩, ?_⟩
  exact ⟨s.nextTempId, rfl, hBase.temps, Nat.lt_succ_self _⟩

theorem newLabelName_lowers (stem : String) :
    Lowers base names (newLabelName stem) s fun x s' => NewName base s' x := by
  intro hBase
  refine Safe.getBind (Safe.bind (Safe.set (Q := fun _ s' =>
    s' = { s with nextLabelId := s.nextLabelId + 1 }) rfl) ?_)
  rintro - s' rfl
  refine Safe.pure ⟨⟨⟨le_refl _, Nat.le_succ _⟩, [], by simp, by simp⟩, ?_⟩
  exact ⟨stem, s.nextLabelId, rfl, hBase.labels, Nat.lt_succ_self _⟩

theorem nextQuestion_lowers : Lowers base names nextQuestion s fun _ _ => True := by
  intro _
  refine Safe.getBind (Safe.bind (Safe.set (Q := fun _ s' =>
    s' = { s with questions := s.questions + 1 }) rfl) ?_)
  rintro - s' rfl
  exact Safe.pure ⟨⟨⟨le_refl _, le_refl _⟩, [], by simp, by simp⟩, trivial⟩

theorem inferExpressionType_lowers (info : Lookups) (e : Expr) :
    Lowers base names (inferExpressionType info e) s fun _ _ => True := by
  refine Lowers.bind nextQuestion_lowers ?_
  intro question s' _ _
  exact Lowers.pure trivial

end Rules

-- ---
-- Pieces of code
-- ---

def IROpcode.isPlain : IROpcode → Bool
  | .declareLocal | .assign | .addressOf | .load | .store | .binary | .unary | .call
  | .callIndirect | .new | .cast => true
  | _ => false

variable {label name typeName : String} {stride : Int} {variants : List (Name × Option Ty × Int)}
  {info : Lookups}

section Pieces

variable {base s s' : Lowering}

theorem Confined.plain (hOp : instruction.op.isPlain = true)
    (hDest : instruction.op.writesDestination = true → Owned base s names instruction.dest) :
    Confined base s names instruction := by
  have hWrites : ∀ operand ∈ instruction.writes,
      instruction.op.writesDestination = true ∧ operand = instruction.dest := by
    intro operand hOperand
    unfold IRInstruction.writes at hOperand
    split at hOperand
    · rename_i hIs
      rw [hIs] at hOp
      cases hOp
    · rename_i hIs
      rw [hIs] at hOp
      cases hOp
    · split at hOperand
      · rename_i hW
        exact ⟨hW, mem_singleton.mp hOperand⟩
      · cases hOperand
  refine ⟨?_, ?_, ?_, ?_⟩
  · intro operand hOperand
    obtain ⟨hW, rfl⟩ := hWrites operand hOperand
    exact hDest hW
  · intro hIs
    rw [hIs] at hOp
    cases hOp
  · intro hIs
    rw [hIs] at hOp
    cases hOp
  · intro hIs
    cases hName : instruction.op <;> rw [hName] at hOp hIs <;>
      first
      | exact absurd hOp (by decide)
      | exact absurd hIs (by decide)

theorem NewTemp.owned (h : NewTemp base s operand) :
    Owned base s names operand := by
  obtain ⟨k, rfl, hLow, hHigh⟩ := h
  exact ⟨k, rfl, hLow, hHigh⟩

theorem NewTemp.later (h : NewTemp base s operand) (hAfter : Before s s') :
    NewTemp base s' operand :=
  h.mono (Before.refl base) hAfter

theorem NewName.later {x : String} (h : NewName base s x) (hAfter : Before s s') :
    NewName base s' x :=
  h.mono (Before.refl base) hAfter

theorem emit_compute_lowers (hOp : instruction.op.isPlain = true)
    (hDest : NewTemp base s instruction.dest) :
    Lowers base names (emit instruction) s fun _ _ => True :=
  emit_lowers (Confined.plain hOp fun _ => hDest.owned)

theorem emit_silent_lowers (hOp : instruction.op.isPlain = true)
    (hWrites : instruction.op.writesDestination = false) :
    Lowers base names (emit instruction) s fun _ _ => True := by
  refine emit_lowers (Confined.plain hOp ?_)
  intro hW
  rw [hWrites] at hW
  cases hW

theorem emitJump_lowers (h : NewName base s label) :
    Lowers base names (emitJump label) s fun _ _ => True := by
  refine emit_lowers ⟨?_, by simp, by simp, fun _ => ⟨label, rfl, h⟩⟩
  intro operand hOperand
  cases hOperand

theorem emitLabel_lowers (h : NewName base s label) :
    Lowers base names (emitLabel label) s fun _ _ => True := by
  refine emit_lowers ⟨?_, by simp, fun _ => ⟨label, rfl, h⟩, fun hOp => by cases hOp⟩
  intro operand hOperand
  cases hOperand

variable {value : IROperand}

theorem emitBranchZero_lowers (h : NewName base s label) :
    Lowers base names (emitBranchZero value label) s fun _ _ => True := by
  refine emit_lowers ⟨?_, by simp, by simp, fun _ => ⟨label, rfl, h⟩⟩
  intro operand hOperand
  cases hOperand

theorem emitLocalDeclaration_lowers :
    Lowers base names (emitLocalDeclaration name typeName) s fun _ _ => True :=
  emit_silent_lowers rfl rfl

theorem emitAddressOfSymbol_lowers :
    Lowers base names (emitAddressOfSymbol name) s fun operand s' => NewTemp base s' operand := by
  refine Lowers.bind makeTempOperand_lowers ?_
  intro destination s₁ _ hNew
  refine Lowers.bind (emit_compute_lowers rfl hNew) ?_
  intro _ s₂ hAfter _
  exact Lowers.pure (hNew.later hAfter)

theorem emitBinary_lowers {op : String} {lhs rhs : IROperand} :
    Lowers base names (emitBinary op lhs rhs) s fun operand s' => NewTemp base s' operand := by
  refine Lowers.bind makeTempOperand_lowers ?_
  intro destination s₁ _ hNew
  refine Lowers.bind (emit_compute_lowers rfl hNew) ?_
  intro _ s₂ hAfter _
  exact Lowers.pure (hNew.later hAfter)

theorem emitLoad_lowers {address : IROperand} {size : Int} {t : Option Ty} :
    Lowers base names (emitLoad address size t) s fun operand s' => NewTemp base s' operand := by
  refine Lowers.bind makeTempOperand_lowers ?_
  intro destination s₁ _ hNew
  refine Lowers.bind (emit_compute_lowers rfl hNew) ?_
  intro _ s₂ hAfter _
  exact Lowers.pure (hNew.later hAfter)

theorem emitSymbolAssignment_lowers (hName : NewName base s name ∨ name ∈ names) :
    Lowers base names (emitSymbolAssignment info name value) s fun _ _ => True := by
  unfold emitSymbolAssignment
  split
  · refine Lowers.bind emitAddressOfSymbol_lowers ?_
    intro destAddress s₁ _ _
    refine Lowers.bind emitAddressOfSymbol_lowers ?_
    intro sourceAddress s₂ _ _
    exact emit_silent_lowers rfl rfl
  · exact emit_lowers (Confined.plain rfl fun _ => hName)

theorem emitAddressWithOffset_lowers {address : IROperand} {offset : Nat} :
    Lowers base names (emitAddressWithOffset address offset) s fun _ _ => True := by
  unfold emitAddressWithOffset
  split
  · exact Lowers.pure trivial
  · exact emitBinary_lowers.conseq fun _ _ _ => trivial

theorem emitTrapUnless_lowers {arg0 arg1 : IROperand} {trapStem okStem : String} {kind : Int} :
    Lowers base names (emitTrapUnless value trapStem okStem kind message arg0 arg1) s
      fun _ _ => True := by
  refine Lowers.bind (newLabelName_lowers trapStem) ?_
  intro trapLabel s₁ _ hTrap
  refine Lowers.bind (newLabelName_lowers okStem) ?_
  intro okLabel s₂ h₂ hOk
  refine Lowers.bind (emitBranchZero_lowers (hTrap.later h₂)) ?_
  intro _ s₃ h₃ _
  refine Lowers.bind (emitJump_lowers (hOk.later h₃)) ?_
  intro _ s₄ h₄ _
  refine Lowers.bind (emitLabel_lowers (hTrap.later (h₂.trans (h₃.trans h₄)))) ?_
  intro _ s₅ h₅ _
  -- the trap is a call without a destination
  refine Lowers.bind (emit_lowers (Confined.plain rfl fun _ => trivial)) ?_
  intro _ s₆ h₆ _
  exact emitLabel_lowers (hOk.later (h₃.trans (h₄.trans (h₅.trans h₆))))

theorem emitNullCheck_lowers : Lowers base names (emitNullCheck info value) s fun _ _ => True := by
  unfold emitNullCheck
  split
  · exact emitTrapUnless_lowers
  · exact Lowers.pure trivial

theorem emitBoundsCheck_lowers {index : IROperand} {size : Nat} :
    Lowers base names (emitBoundsCheck info index size) s fun _ _ => True := by
  unfold emitBoundsCheck
  split
  · refine Lowers.bind emitBinary_lowers ?_
    intro inBounds s₁ _ _
    exact emitTrapUnless_lowers
  · exact Lowers.pure trivial

theorem emitScaledIndexOffset_lowers {index : IROperand} :
    Lowers base names (emitScaledIndexOffset index stride) s fun _ _ => True := by
  unfold emitScaledIndexOffset
  split
  · exact Lowers.pure trivial
  · exact emitBinary_lowers.conseq fun _ _ _ => trivial

theorem matchSubject_lowers :
    Lowers base names (matchSubject info value typeName) s fun _ _ => True := by
  unfold matchSubject
  split
  · exact Lowers.pure trivial
  · refine Lowers.bind (newLabelName_lowers _) ?_
    intro name s₁ _ hName
    refine Lowers.bind emitLocalDeclaration_lowers ?_
    intro _ s₂ h₂ _
    refine Lowers.bind (emitSymbolAssignment_lowers (Or.inl (hName.later h₂))) ?_
    intro _ s₃ _ _
    exact Lowers.pure trivial

theorem newArmLabels_lowers (patterns : List Pattern) : Lowers base names (newArmLabels patterns) s
      fun labels s' => ∀ label ∈ labels, NewName base s' label := by
  induction patterns generalizing s with
  | nil =>
    refine Lowers.pure ?_
    intro label hLabel
    cases hLabel
  | cons pattern patterns ih =>
    refine Lowers.bind (newLabelName_lowers _) ?_
    intro label s₁ _ hLabel
    refine Lowers.bind ih ?_
    intro labels s₂ h₂ hLabels
    refine Lowers.pure ?_
    intro other hOther
    rcases mem_cons.mp hOther with rfl | hRest
    · exact hLabel.later h₂
    · exact hLabels other hRest

theorem defaultLabel_mem (endLabel : String) (arms : List (Pattern × String)) :
    defaultLabel endLabel arms = endLabel ∨ defaultLabel endLabel arms ∈ arms.map Prod.snd := by
  unfold defaultLabel
  cases hLast : (arms.filter fun arm => arm.1 == Pattern.default).getLast? with
  | none => exact Or.inl rfl
  | some arm =>
    have hMem := mem_of_getLast? hLast
    exact Or.inr (mem_map_of_mem (mem_of_mem_filter hMem))

theorem emitDispatch_lowers {tag : IROperand}
    {arms : List (Pattern × String)} (h : ∀ arm ∈ arms, NewName base s arm.2) :
    Lowers base names (emitDispatch variants tag arms) s fun _ _ => True := by
  induction arms generalizing s with
  | nil => exact Lowers.pure trivial
  | cons arm arms ih =>
    obtain ⟨pattern, label⟩ := arm
    have hRest : ∀ arm ∈ arms, NewName base s arm.2 := by
      intro arm hArm
      exact h arm (mem_cons_of_mem _ hArm)
    cases pattern with
    | default => exact ih hRest
    | variant v binding =>
      unfold emitDispatch
      split
      · exact Lowers.throw
      · refine Lowers.bind (emit_lowers ⟨?_, by simp, by simp,
          fun _ => ⟨label, rfl, h (.variant v binding, label) mem_cons_self⟩⟩) ?_
        · intro operand hOperand
          cases hOperand
        · intro _ s₁ h₁ _
          refine ih ?_
          intro arm hArm
          exact (hRest arm hArm).later h₁

theorem emitBinding_lowers {enumName : Name}
    {subjectAddress : IROperand} {pattern : Pattern} (h : ∀ x, pattern.binding = some x → x ∈ names) :
    Lowers base names (emitBinding info enumName variants subjectAddress pattern) s
      fun _ _ => True := by
  unfold emitBinding
  split
  · rename_i v x
    have hName : x ∈ names := h x rfl
    split
    · exact Lowers.throw
    · refine Lowers.bind emitLocalDeclaration_lowers ?_
      intro _ s₁ _ _
      refine Lowers.bind emitAddressWithOffset_lowers ?_
      intro payloadAddress s₂ _ _
      split
      · refine Lowers.bind emitAddressOfSymbol_lowers ?_
        intro bindingAddress s₃ _ _
        exact emit_silent_lowers rfl rfl
      · refine Lowers.bind emitLoad_lowers ?_
        intro value s₃ _ _
        exact emitSymbolAssignment_lowers (Or.inr hName)
  · exact Lowers.pure trivial

end Pieces

-- ---
-- Expressions
-- ---

mutual

def bindingsOf : Expr → List Name
  | .numberLiteral _ _ | .floatLiteral _ | .stringLiteral _ | .identifier _ => []
  | .newExpression _ => []
  | .binaryExpression l _ r => bindingsOf l ++ bindingsOf r
  | .unaryExpression _ e => bindingsOf e
  | .functionCall _ arguments => bindingsOfList arguments
  | .methodCall object _ arguments => bindingsOf object ++ bindingsOfList arguments
  | .funcPtrCall function arguments => bindingsOf function ++ bindingsOfList arguments
  | .memberAccess object _ => bindingsOf object
  | .indexExpression array index => bindingsOf array ++ bindingsOf index
  | .castExpression _ e => bindingsOf e
  | .matchExpression subject arms => bindingsOf subject ++ bindingsOfArms arms

def bindingsOfList : List Expr → List Name
  | [] => []
  | e :: es => bindingsOf e ++ bindingsOfList es

def bindingsOfArms : List (Pattern × Expr) → List Name
  | [] => []
  | (pattern, body) :: arms => pattern.binding.toList ++ bindingsOf body ++ bindingsOfArms arms

end

def bareVariable : Expr → Option Name
  | .identifier x => some x
  | .unaryExpression .addressOf (.unaryExpression .deref e) => bareVariable e
  | _ => none

/-- What an operand can be when lowering has come to `s`: a temp numbered before, a
name made before, or a variable. -/
def Settled (x : Option Name) (s : Lowering) : IROperand → Prop
  | .temp t => ∃ k, t = tempName k ∧ k < s.nextTempId
  | .symbol y => x = some y ∨ ∃ stem k, y = labelName stem k ∧ k < s.nextLabelId
  | _ => True

variable {address : Lower (IROperand × Option Ty)} {l r e : Expr} {op : BinaryOp} {f : Name}

section Combinators

variable {base s : Lowering} {x : Option Name}

/-- An action that lowers to something, wherever it starts. -/
def Frames (names : List Name) (x : Option Name) (m : Lower IROperand) : Prop :=
  ∀ base s, Lowers base names m s fun operand s' => Settled x s' operand

def FramesAddress (names : List Name) (x : Option Name) (m : Lower (IROperand × Option Ty)) :
    Prop :=
  ∀ base s, Lowers base names m s fun r s' => Settled x s' r.1

def FramesList (names : List Name) (m : Lower (List IROperand)) : Prop :=
  ∀ base s, Lowers base names m s fun _ _ => True

theorem NewTemp.settled (h : NewTemp base s operand) :
    Settled x s operand := by
  obtain ⟨k, rfl, -, hHigh⟩ := h
  exact ⟨k, rfl, hHigh⟩

theorem NewName.settled (h : NewName base s name) : Settled x s (.symbol name) := by
  obtain ⟨stem, k, rfl, -, hHigh⟩ := h
  exact Or.inr ⟨stem, k, rfl, hHigh⟩

theorem Settled.later {s' : Lowering} (h : Settled x s operand) (hAfter : Before s s') :
    Settled x s' operand := by
  cases operand with
  | temp t =>
    obtain ⟨k, hk, hLt⟩ := h
    exact ⟨k, hk, hLt.trans_le hAfter.temps⟩
  | symbol y =>
    rcases h with hx | ⟨stem, k, hk, hLt⟩
    · exact Or.inl hx
    · exact Or.inr ⟨stem, k, hk, hLt.trans_le hAfter.labels⟩
  | _ => trivial

theorem identifierAddress_frames {wantType : Bool} {y : Name} :
    FramesAddress names x (identifierAddress info wantType y) := by
  intro base s
  unfold identifierAddress
  split
  · split
    · exact Lowers.throw
    · refine Lowers.bind emitAddressOfSymbol_lowers ?_
      intro address s₁ _ hNew
      exact Lowers.pure hNew.settled
    · refine Lowers.bind (inferExpressionType_lowers _ _) ?_
      intro t s₁ _ _
      refine Lowers.bind emitAddressOfSymbol_lowers ?_
      intro address s₂ _ hNew
      exact Lowers.pure hNew.settled
  · refine Lowers.bind emitAddressOfSymbol_lowers ?_
    intro address s₁ _ hNew
    exact Lowers.pure hNew.settled

variable {value : Lower IROperand} {y z : Option Name}

theorem memberAddress_frames {object : Expr} {member : Name} (hValue : Frames names y value)
    (hAddress : FramesAddress names z address) :
    FramesAddress names x (memberAddress info object member value address) := by
  intro base s
  have hObject : Lowers base names (memberObject info object value address) s fun _ _ => True := by
    refine Lowers.bind (inferExpressionType_lowers _ _) ?_
    intro t s₁ _ _
    split
    · refine Lowers.bind (hValue base s₁) ?_
      intro pointer s₂ _ _
      refine Lowers.bind emitNullCheck_lowers ?_
      intro _ s₃ _ _
      exact Lowers.pure trivial
    · refine Lowers.bind (hValue base s₁) ?_
      intro record s₂ _ _
      exact Lowers.pure trivial
    · exact (hAddress base s₁).conseq fun _ _ _ => trivial
  refine Lowers.bind hObject ?_
  intro r s₁ _ _
  dsimp only
  split
  · exact Lowers.throw
  · split
    · exact Lowers.throw
    · refine Lowers.bind emitBinary_lowers ?_
      intro fieldAddress s₂ _ hNew
      exact Lowers.pure hNew.settled

theorem indexAddress_frames {array : Expr} {indexValue : Lower IROperand} {w : Option Name}
    (hValue : Frames names y value) (hAddress : FramesAddress names z address)
    (hIndex : Frames names w indexValue) :
    FramesAddress names x (indexAddress info array value address indexValue) := by
  intro base s
  refine Lowers.bind (inferExpressionType_lowers _ _) ?_
  intro t s₁ _ _
  split
  · refine Lowers.bind (hAddress base s₁) ?_
    intro r s₂ _ _
    refine Lowers.bind (hIndex base s₂) ?_
    intro index s₃ _ _
    refine Lowers.bind emitBoundsCheck_lowers ?_
    intro _ s₄ _ _
    refine Lowers.bind emitBinary_lowers ?_
    intro scaled s₅ _ _
    refine Lowers.bind emitBinary_lowers ?_
    intro elementAddress s₆ _ hNew
    exact Lowers.pure hNew.settled
  · refine Lowers.bind (hValue base s₁) ?_
    intro pointer s₂ _ _
    refine Lowers.bind (hIndex base s₂) ?_
    intro index s₃ _ _
    refine Lowers.bind emitNullCheck_lowers ?_
    intro _ s₄ _ _
    refine Lowers.bind emitBinary_lowers ?_
    intro scaled s₅ _ _
    refine Lowers.bind emitBinary_lowers ?_
    intro elementAddress s₆ _ hNew
    exact Lowers.pure hNew.settled
  · exact Lowers.throw

theorem derefAddress_frames {operand : Expr} (hValue : Frames names x value) :
    FramesAddress names x (derefAddress info operand value) := by
  intro base s
  refine Lowers.bind (inferExpressionType_lowers _ _) ?_
  intro t s₁ _ _
  split
  · refine Lowers.bind (hValue base s₁) ?_
    intro pointer s₂ _ hPointer
    refine Lowers.bind emitNullCheck_lowers ?_
    intro _ s₃ h₃ _
    exact Lowers.pure (hPointer.later h₃)
  · refine Lowers.bind (hValue base s₁) ?_
    intro pointer s₂ _ hPointer
    refine Lowers.bind emitNullCheck_lowers ?_
    intro _ s₃ h₃ _
    exact Lowers.pure (hPointer.later h₃)
  · exact Lowers.throw

theorem loadFrom_frames (hAddress : FramesAddress names y address) :
    Frames names x (loadFrom info message address) := by
  intro base s
  refine Lowers.bind (hAddress base s) ?_
  intro r s₁ _ _
  dsimp only
  split
  · exact Lowers.throw
  · exact emitLoad_lowers.conseq fun _ _ hNew => hNew.settled

variable {left right : Lower IROperand}

theorem concatenate_frames (hLeft : Frames names y left) (hRight : Frames names z right) :
    Frames names x (concatenate left right) := by
  intro base s
  refine Lowers.bind makeTempOperand_lowers ?_
  intro destination s₁ _ hNew
  refine Lowers.bind (hLeft base s₁) ?_
  intro l s₂ h₂ _
  refine Lowers.bind (hRight base s₂) ?_
  intro r s₃ h₃ _
  have hNew := hNew.later (h₂.trans h₃)
  refine Lowers.bind (emit_compute_lowers rfl hNew) ?_
  intro _ s₄ h₄ _
  exact Lowers.pure (hNew.later h₄).settled

theorem shortCircuit_frames {isAnd : Bool} (hLeft : Frames names y left)
    (hRight : Frames names z right) :
    Frames names x (shortCircuit isAnd left right) := by
  intro base s
  refine Lowers.bind makeTempOperand_lowers ?_
  intro destination s₁ _ hNew
  refine Lowers.bind (hLeft base s₁) ?_
  intro l s₂ h₂ _
  refine Lowers.bind (newLabelName_lowers _) ?_
  intro rhsLabel s₃ h₃ hRhs
  refine Lowers.bind (newLabelName_lowers _) ?_
  intro trueLabel s₄ h₄ hTrue
  refine Lowers.bind (newLabelName_lowers _) ?_
  intro falseLabel s₅ h₅ hFalse
  refine Lowers.bind (newLabelName_lowers _) ?_
  intro endLabel s₆ h₆ hEnd
  have hRhs := hRhs.later (h₄.trans (h₅.trans h₆))
  have hTrue := hTrue.later (h₅.trans h₆)
  have hFalse := hFalse.later h₆
  have hNew := hNew.later (h₂.trans (h₃.trans (h₄.trans (h₅.trans h₆))))
  have hFirst : NewName base s₆ (if isAnd = true then falseLabel else rhsLabel) := by
    split
    · exact hFalse
    · exact hRhs
  refine Lowers.bind (emitBranchZero_lowers hFirst) ?_
  intro _ s₇ h₇ _
  have hJump : Lowers base names (emitDecided isAnd trueLabel) s₇ fun _ _ => True := by
    unfold emitDecided
    split
    · exact Lowers.pure trivial
    · exact emitJump_lowers (hTrue.later h₇)
  refine Lowers.bind hJump ?_
  intro _ s₈ h₈ _
  refine Lowers.bind (emitLabel_lowers (hRhs.later (h₇.trans h₈))) ?_
  intro _ s₉ h₉ _
  refine Lowers.bind (hRight base s₉) ?_
  intro r t h₁₀ _
  have hAll := h₇.trans (h₈.trans (h₉.trans h₁₀))
  refine Lowers.bind (emitBranchZero_lowers (hFalse.later hAll)) ?_
  intro _ t₁ k₁ _
  have hAll := hAll.trans k₁
  refine Lowers.bind (emitLabel_lowers (hTrue.later hAll)) ?_
  intro _ t₂ k₂ _
  have hAll := hAll.trans k₂
  refine Lowers.bind (emit_compute_lowers rfl (hNew.later hAll)) ?_
  intro _ t₃ k₃ _
  have hAll := hAll.trans k₃
  refine Lowers.bind (emitJump_lowers (hEnd.later hAll)) ?_
  intro _ t₄ k₄ _
  have hAll := hAll.trans k₄
  refine Lowers.bind (emitLabel_lowers (hFalse.later hAll)) ?_
  intro _ t₅ k₅ _
  have hAll := hAll.trans k₅
  refine Lowers.bind (emit_compute_lowers rfl (hNew.later hAll)) ?_
  intro _ t₆ k₆ _
  have hAll := hAll.trans k₆
  refine Lowers.bind (emitLabel_lowers (hEnd.later hAll)) ?_
  intro _ t₇ k₇ _
  exact Lowers.pure (hNew.later (hAll.trans k₇)).settled

theorem movePointer_frames {op : String} {pointer index : Lower IROperand}
    (hPointer : Frames names y pointer) (hIndex : Frames names z index) :
    Frames names x (movePointer op stride pointer index) := by
  intro base s
  refine Lowers.bind (hPointer base s) ?_
  intro p s₁ _ _
  refine Lowers.bind (hIndex base s₁) ?_
  intro i s₂ _ _
  refine Lowers.bind emitScaledIndexOffset_lowers ?_
  intro offset s₃ _ _
  exact emitBinary_lowers.conseq fun _ _ hNew => hNew.settled

theorem pointerDistance_frames (hLeft : Frames names y left) (hRight : Frames names z right) :
    Frames names x (pointerDistance stride left right) := by
  intro base s
  refine Lowers.bind (hLeft base s) ?_
  intro l s₁ _ _
  refine Lowers.bind (hRight base s₁) ?_
  intro r s₂ _ _
  refine Lowers.bind emitBinary_lowers ?_
  intro byteDiff s₃ _ hNew
  split
  · exact Lowers.pure hNew.settled
  · exact emitBinary_lowers.conseq fun _ _ hNew => hNew.settled

theorem operationFloatBits_lowers :
    Lowers base names (operationFloatBits info l op r) s fun _ _ => True := by
  refine Lowers.bind (inferExpressionType_lowers _ _) ?_
  intro t s₁ _ _
  dsimp only
  split
  · exact Lowers.pure trivial
  · split
    · exact Lowers.pure trivial
    · refine Lowers.bind (inferExpressionType_lowers _ _) ?_
      intro left s₂ _ _
      refine Lowers.bind (inferExpressionType_lowers _ _) ?_
      intro right s₃ _ _
      exact Lowers.pure trivial

section

variable (hLeft : Frames names y left) (hRight : Frames names z right)
include hLeft hRight

theorem plainBinary_frames : Frames names x (plainBinary info l op r left right) := by
  intro base s
  refine Lowers.bind (hLeft base s) ?_
  intro lhs s₁ _ _
  refine Lowers.bind (hRight base s₁) ?_
  intro rhs s₂ _ _
  refine Lowers.bind makeTempOperand_lowers ?_
  intro destination s₃ _ hNew
  refine Lowers.bind operationFloatBits_lowers ?_
  intro bits s₄ h₄ _
  refine Lowers.bind (emit_compute_lowers rfl (hNew.later h₄)) ?_
  intro _ s₅ h₅ _
  exact Lowers.pure (hNew.later (h₄.trans h₅)).settled

theorem strictBinary_frames : Frames names x (strictBinary info l op r left right) := by
  intro base s
  refine Lowers.bind (inferExpressionType_lowers _ _) ?_
  intro leftType s₁ _ _
  refine Lowers.bind (inferExpressionType_lowers _ _) ?_
  intro rightType s₂ _ _
  split
  · exact movePointer_frames hLeft hRight base s₂
  · exact movePointer_frames hRight hLeft base s₂
  · exact pointerDistance_frames hLeft hRight base s₂
  · exact plainBinary_frames hLeft hRight base s₂

theorem lowerAddition_frames : Frames names x (lowerAddition info l r left right) := by
  intro base s
  refine Lowers.bind (inferExpressionType_lowers _ _) ?_
  intro t s₁ _ _
  split
  · exact concatenate_frames hLeft hRight base s₁
  · exact strictBinary_frames hLeft hRight base s₁

end

theorem plainUnary_frames {op : UnaryOp} (hValue : Frames names y value) :
    Frames names x (plainUnary info op e value) := by
  intro base s
  refine Lowers.bind (hValue base s) ?_
  intro operand s₁ _ _
  refine Lowers.bind makeTempOperand_lowers ?_
  intro destination s₂ _ hNew
  refine Lowers.bind (inferExpressionType_lowers _ _) ?_
  intro t s₃ h₃ _
  refine Lowers.bind (emit_compute_lowers rfl (hNew.later h₃)) ?_
  intro _ s₄ h₄ _
  exact Lowers.pure (hNew.later (h₃.trans h₄)).settled

theorem lowerCast_frames (hValue : Frames names y value) :
    Frames names x (lowerCast info typeName e value) := by
  intro base s
  refine Lowers.bind (hValue base s) ?_
  intro operand s₁ _ _
  refine Lowers.bind makeTempOperand_lowers ?_
  intro destination s₂ _ hNew
  refine Lowers.bind (inferExpressionType_lowers _ _) ?_
  intro t s₃ h₃ _
  refine Lowers.bind (emit_compute_lowers rfl (hNew.later h₃)) ?_
  intro _ s₄ h₄ _
  exact Lowers.pure (hNew.later (h₃.trans h₄)).settled

theorem lowerNew_frames : Frames names x (lowerNew info typeName) := by
  intro base s
  refine Lowers.bind (inferExpressionType_lowers _ _) ?_
  intro t s₁ _ _
  refine Lowers.bind makeTempOperand_lowers ?_
  intro destination s₂ _ hNew
  refine Lowers.bind (emit_compute_lowers rfl hNew) ?_
  intro _ s₃ h₃ _
  exact Lowers.pure (hNew.later h₃).settled

theorem convertArgument_lowers {isDirect : Bool} {parameter : Ty} {question : Nat} :
    Lowers base names (convertArgument info isDirect parameter question e operand) s
      fun _ _ => True := by
  unfold convertArgument
  split
  · exact emitLoad_lowers.conseq fun _ _ _ => trivial
  · split
    · exact Lowers.pure trivial
    · exact Lowers.pure trivial

theorem convertArguments_lowers {isDirect : Bool} (parameters : List Ty) (arguments : List Expr)
    (operands : List IROperand) :
    Lowers base names (convertArguments info isDirect parameters arguments operands) s
      fun _ _ => True := by
  induction parameters generalizing arguments operands s with
  | nil =>
    exact Lowers.pure trivial
  | cons parameter parameters ih =>
    unfold convertArguments
    split
    · rename_i hParameters
      cases hParameters
      refine Lowers.bind nextQuestion_lowers ?_
      intro question s₁ _ _
      refine Lowers.bind convertArgument_lowers ?_
      intro converted s₂ _ _
      refine Lowers.bind (ih _ _) ?_
      intro rest s₃ _ _
      exact Lowers.pure trivial
    · exact Lowers.pure trivial

theorem callInstruction_isPlain (isIndirect : Bool) (f : Name) (destination : IROperand)
    (arguments : List IROperand) :
    (callInstruction isIndirect f destination arguments).op.isPlain = true := by
  cases isIndirect <;> rfl

theorem callInstruction_dest (isIndirect : Bool) (f : Name) (destination : IROperand)
    (arguments : List IROperand) :
    (callInstruction isIndirect f destination arguments).dest = destination := by
  cases isIndirect <;> rfl

variable {arguments : List Expr} {lowered : Lower (List IROperand)}

theorem lowerNamedCall_frames (hLowered : FramesList names lowered) :
    Frames names x (lowerNamedCall info f arguments lowered) := by
  intro base s
  refine Lowers.bind nextQuestion_lowers ?_
  intro question s₁ _ _
  refine Lowers.bind makeTempOperand_lowers ?_
  intro destination s₂ _ hNew
  refine Lowers.bind (hLowered base s₂) ?_
  intro operands s₃ h₃ _
  refine Lowers.bind (convertArguments_lowers _ _ _) ?_
  intro converted s₄ h₄ _
  have hNew := hNew.later (h₃.trans h₄)
  refine Lowers.bind (emit_compute_lowers (callInstruction_isPlain _ _ _ _) ?_) ?_
  · rw [callInstruction_dest]
    exact hNew
  · intro _ s₅ h₅ _
    exact Lowers.pure (hNew.later h₅).settled

theorem lowerPointerCall_frames {function : Expr} {callee : Lower IROperand}
    (hCallee : Frames names y callee) (hLowered : FramesList names lowered) :
    Frames names x (lowerPointerCall info function arguments callee lowered) := by
  intro base s
  refine Lowers.bind makeTempOperand_lowers ?_
  intro destination s₁ _ hNew
  refine Lowers.bind (hCallee base s₁) ?_
  intro pointer s₂ h₂ _
  refine Lowers.bind (hLowered base s₂) ?_
  intro operands s₃ h₃ _
  refine Lowers.bind (inferExpressionType_lowers _ _) ?_
  intro t s₄ h₄ _
  refine Lowers.bind (convertArguments_lowers _ _ _) ?_
  intro converted s₅ h₅ _
  have hNew := hNew.later (h₂.trans (h₃.trans (h₄.trans h₅)))
  refine Lowers.bind (emit_compute_lowers rfl hNew) ?_
  intro _ s₆ h₆ _
  exact Lowers.pure (hNew.later h₆).settled

theorem payloadSource_lowers {payload : Ty} {value : IROperand} :
    Lowers base names (payloadSource info payload value) s fun _ _ => True := by
  unfold payloadSource
  split
  · refine Lowers.bind (newLabelName_lowers _) ?_
    intro name s₁ _ hName
    refine Lowers.bind emitLocalDeclaration_lowers ?_
    intro _ s₂ h₂ _
    refine Lowers.bind (emitSymbolAssignment_lowers (Or.inl (hName.later h₂))) ?_
    intro _ s₃ _ _
    exact emitAddressOfSymbol_lowers.conseq fun _ _ _ => trivial
  · exact Lowers.pure trivial

theorem emitPayload_lowers {enumType : Ty} {enumAddress : IROperand} {payload : Option Ty}
    (hLowered : FramesList names lowered) :
    Lowers base names (emitPayload info enumType enumAddress arguments lowered payload) s
      fun _ _ => True := by
  unfold emitPayload
  split
  · exact Lowers.pure trivial
  · split
    · refine Lowers.bind (hLowered base s) ?_
      intro operands s₁ _ _
      refine Lowers.bind emitAddressWithOffset_lowers ?_
      intro payloadAddress s₂ _ _
      refine Lowers.bind payloadSource_lowers ?_
      intro source s₃ _ _
      exact emit_silent_lowers rfl rfl
    · exact Lowers.throw

theorem lowerConstructor_frames {enumType : Ty} {payload : Option Ty}
    (hLowered : FramesList names lowered) :
    Frames names x (lowerConstructor info f enumType payload arguments lowered) := by
  intro base s
  refine Lowers.bind (newLabelName_lowers _) ?_
  intro name s₁ _ hName
  refine Lowers.bind emitLocalDeclaration_lowers ?_
  intro _ s₂ h₂ _
  refine Lowers.bind emitAddressOfSymbol_lowers ?_
  intro enumAddress s₃ h₃ _
  refine Lowers.bind (emit_silent_lowers rfl rfl) ?_
  intro _ s₄ h₄ _
  refine Lowers.bind (emitPayload_lowers hLowered) ?_
  intro _ s₅ h₅ _
  exact Lowers.pure (hName.later (h₂.trans (h₃.trans (h₄.trans h₅)))).settled

theorem lowerSizeof_frames : Frames names x (lowerSizeof info arguments) := by
  intro base s
  unfold lowerSizeof
  split
  · split
    · exact Lowers.throw
    · exact Lowers.pure trivial
  · exact Lowers.throw

theorem lowerCall_frames (hLowered : FramesList names lowered) :
    Frames names x (lowerCall info f arguments lowered) := by
  intro base s
  unfold lowerCall
  split
  · exact lowerSizeof_frames base s
  · split
    · exact Lowers.pure trivial
    · split
      · exact lowerConstructor_frames hLowered base s
      · exact lowerNamedCall_frames hLowered base s

theorem methodFunction_lowers {receiver : Option Ty} :
    Lowers base names (methodFunction receiver f) s fun _ _ => True := by
  unfold methodFunction
  split
  · exact Lowers.pure trivial
  · exact Lowers.throw

def FramesArms (names : List Name)
    (arms : (Pattern → Lower Unit) → String → String → List String → Lower Unit) : Prop :=
  ∀ base s bind result endLabel labels, (∀ pattern s, (∀ y, pattern.binding = some y → y ∈ names) →
      Lowers base names (bind pattern) s fun _ _ => True) →
    NewName base s result → NewName base s endLabel → (∀ label ∈ labels, NewName base s label) →
    Lowers base names (arms bind result endLabel labels) s fun _ _ => True

theorem lowerMatch_frames {subject whole : Expr} {patterns : List Pattern}
    {arms : (Pattern → Lower Unit) → String → String → List String → Lower Unit}
    (hValue : Frames names y value) (hArms : FramesArms names arms) :
    Frames names x (lowerMatch info subject whole patterns value arms) := by
  intro base s
  refine Lowers.bind (inferExpressionType_lowers _ _) ?_
  intro subjectType s₁ _ _
  split
  · rename_i enumName
    refine Lowers.bind (inferExpressionType_lowers _ _) ?_
    intro resultType s₂ _ _
    split
    · exact Lowers.throw
    · refine Lowers.bind (hValue base s₂) ?_
      intro subjectValue s₃ _ _
      refine Lowers.bind (newLabelName_lowers _) ?_
      intro result s₄ _ hResult
      refine Lowers.bind emitLocalDeclaration_lowers ?_
      intro _ s₅ h₅ _
      refine Lowers.bind matchSubject_lowers ?_
      intro subjectName s₆ h₆ _
      refine Lowers.bind emitAddressOfSymbol_lowers ?_
      intro subjectAddress s₇ h₇ _
      refine Lowers.bind emitLoad_lowers ?_
      intro tag s₈ h₈ _
      refine Lowers.bind (newLabelName_lowers _) ?_
      intro endLabel s₉ h₉ hEnd
      refine Lowers.bind (newArmLabels_lowers patterns) ?_
      intro labels t h₁₀ hLabels
      have hResult := hResult.later (h₅.trans (h₆.trans (h₇.trans (h₈.trans (h₉.trans h₁₀)))))
      have hEnd := hEnd.later h₁₀
      have hZip : ∀ arm ∈ patterns.zip labels, NewName base t arm.2 := by
        intro arm hArm
        exact hLabels arm.2 (of_mem_zip hArm).2
      refine Lowers.bind (emitDispatch_lowers hZip) ?_
      intro _ t₁ k₁ _
      have hDefault : NewName base t₁ (defaultLabel endLabel (patterns.zip labels)) := by
        rcases defaultLabel_mem endLabel (patterns.zip labels) with hIs | hMem
        · rw [hIs]
          exact hEnd.later k₁
        · obtain ⟨arm, hArm, hSnd⟩ := mem_map.mp hMem
          rw [← hSnd]
          exact (hZip arm hArm).later k₁
      refine Lowers.bind (emitJump_lowers hDefault) ?_
      intro _ t₂ k₂ _
      have hAfter := k₁.trans k₂
      refine Lowers.bind (hArms base t₂ _ _ _ _ ?_ (hResult.later hAfter) (hEnd.later hAfter)
        fun label hLabel => (hLabels label hLabel).later hAfter) ?_
      · intro pattern s hNames
        exact emitBinding_lowers hNames
      · intro _ t₃ k₃ _
        refine Lowers.bind (emitLabel_lowers (hEnd.later (hAfter.trans k₃))) ?_
        intro _ t₄ k₄ _
        exact Lowers.pure (hResult.later (hAfter.trans (k₃.trans k₄))).settled
  · exact Lowers.throw

end Combinators

section Induction

mutual

/-- **The frame of lowering.** -/
theorem lowerExpression_frames : ∀ (e : Expr) {names : List Name}, bindingsOf e ⊆ names →
    Frames names (bareVariable e) (lowerExpression info e)
  | .numberLiteral value radix, names, _ => by
    intro base s
    exact Lowers.pure trivial
  | .floatLiteral bits, names, _ => by
    intro base s
    exact Lowers.pure trivial
  | .stringLiteral value, names, _ => by
    intro base s
    exact Lowers.pure trivial
  | .identifier x, names, _ => by
    intro base s
    unfold lowerExpression
    split
    · exact Lowers.pure trivial
    · exact Lowers.pure (Or.inl rfl)
  | .binaryExpression l op r, names, hNames => by
    rw [bindingsOf, append_subset] at hNames
    have hLeft := lowerExpression_frames l hNames.1
    have hRight := lowerExpression_frames r hNames.2
    unfold lowerExpression
    split
    · exact lowerAddition_frames hLeft hRight
    · exact shortCircuit_frames hLeft hRight
    · exact shortCircuit_frames hLeft hRight
    · exact strictBinary_frames hLeft hRight
  | .unaryExpression op e, names, hNames => by
    unfold lowerExpression
    split
    · intro base s
      refine Lowers.bind (lowerLvalueAddress_frames true e hNames base s) ?_
      intro r s₁ _ hAddress
      exact Lowers.pure hAddress
    · exact loadFrom_frames (derefAddress_frames (lowerExpression_frames e hNames))
    · exact plainUnary_frames (lowerExpression_frames e hNames)
  | .functionCall f arguments, names, hNames => by
    exact lowerCall_frames (lowerArguments_frames arguments hNames)
  | .methodCall object f arguments, names, hNames => by
    rw [bindingsOf, append_subset] at hNames
    have hObject := lowerExpression_frames object hNames.1
    have hArguments := lowerArguments_frames arguments hNames.2
    intro base s
    refine Lowers.bind (inferExpressionType_lowers _ _) ?_
    intro receiver s₁ _ _
    split
    · exact lowerSizeof_frames base s₁
    · split
      · exact Lowers.pure trivial
      · refine Lowers.bind methodFunction_lowers ?_
        intro mangled s₂ _ _
        refine lowerCall_frames ?_ base s₂
        intro base s
        refine Lowers.bind (hObject base s) ?_
        intro first t₁ _ _
        refine Lowers.bind (hArguments base t₁) ?_
        intro rest t₂ _ _
        exact Lowers.pure trivial
  | .funcPtrCall function arguments, names, hNames => by
    rw [bindingsOf, append_subset] at hNames
    exact lowerPointerCall_frames (lowerExpression_frames function hNames.1)
      (lowerArguments_frames arguments hNames.2)
  | .memberAccess object member, names, hNames => by
    exact loadFrom_frames (x := none) (memberAddress_frames (x := none)
      (lowerExpression_frames object hNames) (lowerLvalueAddress_frames true object hNames))
  | .indexExpression array index, names, hNames => by
    rw [bindingsOf, append_subset] at hNames
    exact loadFrom_frames (x := none) (indexAddress_frames (x := none)
      (lowerExpression_frames array hNames.1) (lowerLvalueAddress_frames false array hNames.1)
      (lowerExpression_frames index hNames.2))
  | .newExpression typeName, names, _ => by
    exact lowerNew_frames
  | .castExpression typeName e, names, hNames => by
    exact lowerCast_frames (lowerExpression_frames e hNames)
  | .matchExpression subject arms, names, hNames => by
    rw [bindingsOf, append_subset] at hNames
    exact lowerMatch_frames (lowerExpression_frames subject hNames.1)
      (lowerArms_frames arms hNames.2)

theorem lowerLvalueAddress_frames (wantType : Bool) : ∀ (e : Expr) {names : List Name},
    bindingsOf e ⊆ names →
    FramesAddress names (bareVariable (.unaryExpression .addressOf e))
      (lowerLvalueAddress info wantType e)
  | .identifier x, names, _ => by
    exact identifierAddress_frames
  | .memberAccess object member, names, hNames => by
    exact memberAddress_frames (lowerExpression_frames object hNames)
      (lowerLvalueAddress_frames true object hNames)
  | .indexExpression array index, names, hNames => by
    rw [bindingsOf, append_subset] at hNames
    exact indexAddress_frames (lowerExpression_frames array hNames.1)
      (lowerLvalueAddress_frames false array hNames.1) (lowerExpression_frames index hNames.2)
  | .unaryExpression op e, names, hNames => by
    cases op with
    | deref =>
      exact derefAddress_frames (lowerExpression_frames e hNames)
    | _ =>
      intro base s
      exact Lowers.throw
  | .numberLiteral _ _, names, _ => by
    intro base s
    exact Lowers.throw
  | .floatLiteral _, names, _ => by
    intro base s
    exact Lowers.throw
  | .stringLiteral _, names, _ => by
    intro base s
    exact Lowers.throw
  | .binaryExpression _ _ _, names, _ => by
    intro base s
    exact Lowers.throw
  | .functionCall _ _, names, _ => by
    intro base s
    exact Lowers.throw
  | .methodCall _ _ _, names, _ => by
    intro base s
    exact Lowers.throw
  | .funcPtrCall _ _, names, _ => by
    intro base s
    exact Lowers.throw
  | .newExpression _, names, _ => by
    intro base s
    exact Lowers.throw
  | .castExpression _ _, names, _ => by
    intro base s
    exact Lowers.throw
  | .matchExpression _ _, names, _ => by
    intro base s
    exact Lowers.throw

theorem lowerArguments_frames : ∀ (arguments : List Expr) {names : List Name},
    bindingsOfList arguments ⊆ names → FramesList names (lowerArguments info arguments)
  | [], names, _ => by
    intro base s
    exact Lowers.pure trivial
  | e :: arguments, names, hNames => by
    rw [bindingsOfList, append_subset] at hNames
    intro base s
    refine Lowers.bind (lowerExpression_frames e hNames.1 base s) ?_
    intro first s₁ _ _
    refine Lowers.bind (lowerArguments_frames arguments hNames.2 base s₁) ?_
    intro rest s₂ _ _
    exact Lowers.pure trivial

theorem lowerArms_frames : ∀ (arms : List (Pattern × Expr)) {names : List Name},
    bindingsOfArms arms ⊆ names → FramesArms names (lowerArms info arms)
  | [], names, _ => by
    intro base s bind result endLabel labels _ _ _ _
    exact Lowers.pure trivial
  | (pattern, body) :: arms, names, hNames => by
    rw [bindingsOfArms, append_subset, append_subset] at hNames
    obtain ⟨⟨hBinding, hBody⟩, hRest⟩ := hNames
    intro base s bind result endLabel labels hBind hResult hEnd hLabels
    cases labels with
    | nil => exact Lowers.pure trivial
    | cons label labels =>
      refine Lowers.bind (emitLabel_lowers (hLabels label mem_cons_self)) ?_
      intro _ s₁ h₁ _
      have hBound : ∀ y, pattern.binding = some y → y ∈ names := by
        intro y hy
        exact hBinding (by simp [hy])
      refine Lowers.bind (hBind pattern s₁ hBound) ?_
      intro _ s₂ h₂ _
      refine Lowers.bind (lowerExpression_frames body hBody base s₂) ?_
      intro value s₃ h₃ _
      have hAfter := h₁.trans (h₂.trans h₃)
      refine Lowers.bind (emitSymbolAssignment_lowers (Or.inl (hResult.later hAfter))) ?_
      intro _ s₄ h₄ _
      have hAfter := hAfter.trans h₄
      refine Lowers.bind (emitJump_lowers (hEnd.later hAfter)) ?_
      intro _ s₅ h₅ _
      have hAfter := hAfter.trans h₅
      refine lowerArms_frames arms hRest base s₅ bind result endLabel labels hBind
        (hResult.later hAfter) (hEnd.later hAfter) ?_
      intro other hOther
      exact (hLabels other (mem_cons_of_mem _ hOther)).later hAfter

end

end Induction

end Mettle.IR
