import Mathlib.Data.List.Nodup
import Mathlib.Tactic.Linarith

/-!
# Mettle — calling conventions and argument layout

The model of `codegen/binary/abi_spec.c` and of the type classification of
`code_generator_calls.c` it is used with: the two calling conventions, how a type is
passed, and `code_generator_binary_compute_arg_layout`, the loop that assigns each
argument of a call a register or an outgoing stack offset.
-/

namespace Mettle.Codegen

open List

/-! ## Types and how they are passed -/

inductive TypeKind
  | int8
  | int16
  | int32
  | int64
  | uint8
  | uint16
  | uint32
  | uint64
  | bool
  | float32
  | float64
  | string
  | functionPointer
  | pointer
  | array
  | struct
  | enum
  | taggedEnum
  | void
  deriving DecidableEq

/-- A resolved type, as far as the calling convention looks at it. -/
structure ResolvedType where
  kind : TypeKind
  size : Nat
  deriving DecidableEq

inductive AbiPassKind
  | direct
  | indirect
  deriving DecidableEq

def codeGeneratorTypeIsAggregate (type : ResolvedType) : Bool :=
  type.kind == .struct || type.kind == .array

def codeGeneratorAbiTypeSize (type : ResolvedType) : Nat :=
  if type.size > 0 then type.size else 8

/-- `NULL` is `none`. -/
def codeGeneratorAbiClassify : Option ResolvedType → AbiPassKind
  | none => .direct
  | some type =>
    if !codeGeneratorTypeIsAggregate type then .direct
    else
      let s := codeGeneratorAbiTypeSize type
      if s = 0 then .indirect
      else if s > 8 then .indirect
      else if s = 1 ∨ s = 2 ∨ s = 4 ∨ s = 8 then .direct
      else .indirect

/-- The width of a float, 0 for any other type. -/
def codeGeneratorBinaryResolvedTypeFloatBits : Option ResolvedType → Nat
  | none => 0
  | some type =>
    if type.kind = .float32 ∧ type.size = 4 then 32
    else if type.kind = .float64 ∧ type.size = 8 then 64
    else 0

theorem classify_indirect {type : ResolvedType}
    (h : codeGeneratorAbiClassify (some type) = .indirect) :
    codeGeneratorBinaryResolvedTypeFloatBits (some type) = 0 ∧
      0 < codeGeneratorAbiTypeSize type := by
  have hSize : 0 < codeGeneratorAbiTypeSize type := by
    unfold codeGeneratorAbiTypeSize
    split <;> omega
  refine ⟨?_, hSize⟩
  by_cases hAggregate : codeGeneratorTypeIsAggregate type = true
  · rw [codeGeneratorTypeIsAggregate, Bool.or_eq_true, beq_iff_eq, beq_iff_eq] at hAggregate
    rcases hAggregate with hKind | hKind
    · simp [codeGeneratorBinaryResolvedTypeFloatBits, hKind]
    · simp [codeGeneratorBinaryResolvedTypeFloatBits, hKind]
  · simp [codeGeneratorAbiClassify, hAggregate] at h

/-! ## The two conventions -/

/-- The general registers, in encoding order. -/
inductive BinaryGpRegister
  | rax
  | rcx
  | rdx
  | rbx
  | rsp
  | rbp
  | rsi
  | rdi
  | r8
  | r9
  | r10
  | r11
  | r12
  | r13
  | r14
  | r15
  deriving DecidableEq

/-- The float registers. -/
inductive BinaryXmmRegister
  | xmm0
  | xmm1
  | xmm2
  | xmm3
  | xmm4
  | xmm5
  | xmm6
  | xmm7
  deriving DecidableEq

/-- The object formats. -/
inductive BinaryTargetFormat
  | coffWin64
  | elfX64
  deriving DecidableEq

/-- What sets the two conventions apart. -/
structure BinaryAbi where
  intParamRegisters : List BinaryGpRegister
  floatParamRegisters : List BinaryXmmRegister
  shadowSpaceSize : Nat
  indirectReturnRegister : BinaryGpRegister
  countsClassesSeparately : Bool
  deriving DecidableEq

def MS_X64_ABI : BinaryAbi :=
  { intParamRegisters := [.rcx, .rdx, .r8, .r9]
    floatParamRegisters := [.xmm0, .xmm1, .xmm2, .xmm3]
    shadowSpaceSize := 32
    indirectReturnRegister := .rcx
    countsClassesSeparately := false }

def SYSV_ABI : BinaryAbi :=
  { intParamRegisters := [.rdi, .rsi, .rdx, .rcx, .r8, .r9]
    floatParamRegisters := [.xmm0, .xmm1, .xmm2, .xmm3, .xmm4, .xmm5, .xmm6, .xmm7]
    shadowSpaceSize := 0
    indirectReturnRegister := .rdi
    countsClassesSeparately := true }

/-- The convention of a format. -/
def codeGeneratorBinarySelectAbi : BinaryTargetFormat → BinaryAbi
  | .elfX64 => SYSV_ABI
  | .coffWin64 => MS_X64_ABI

/-! ## The argument layout -/

def BINARY_FUNCTION_STACK_SLOT_SIZE : Nat := 8

/-- Where an argument travels. -/
inductive BinaryArgLocation
  | inGpRegister (gpRegister : BinaryGpRegister)
  | inXmmRegister (xmmRegister : BinaryXmmRegister)
  | onStack (stackOffset : Nat)
  deriving DecidableEq

/-- The counters of the layout loop. -/
structure ArgCursor where
  intUsed : Nat
  floatUsed : Nat
  positional : Nat
  stackCursor : Nat
  deriving DecidableEq

def argLayoutStep (abi : BinaryAbi) (cursor : ArgCursor) (wantsFloat : Bool) :
    BinaryArgLocation × ArgCursor :=
  if abi.countsClassesSeparately then
    let spilled : BinaryArgLocation × ArgCursor :=
      (.onStack cursor.stackCursor,
        { cursor with stackCursor := cursor.stackCursor + BINARY_FUNCTION_STACK_SLOT_SIZE })
    if wantsFloat then
      match abi.floatParamRegisters[cursor.floatUsed]? with
      | some xmmRegister =>
        (.inXmmRegister xmmRegister, { cursor with floatUsed := cursor.floatUsed + 1 })
      | none => spilled
    else
      match abi.intParamRegisters[cursor.intUsed]? with
      | some gpRegister =>
        (.inGpRegister gpRegister, { cursor with intUsed := cursor.intUsed + 1 })
      | none => spilled
  else
    let next := { cursor with positional := cursor.positional + 1 }
    match abi.intParamRegisters[cursor.positional]?,
        abi.floatParamRegisters[cursor.positional]? with
    | some gpRegister, some xmmRegister =>
      if wantsFloat then (.inXmmRegister xmmRegister, next) else (.inGpRegister gpRegister, next)
    | _, _ =>
      let stackOffset := (cursor.positional - abi.intParamRegisters.length) *
        BINARY_FUNCTION_STACK_SLOT_SIZE
      (.onStack stackOffset,
        { next with
          stackCursor := max cursor.stackCursor (stackOffset + BINARY_FUNCTION_STACK_SLOT_SIZE) })

def argLayoutFrom (abi : BinaryAbi) : ArgCursor → List Bool → List BinaryArgLocation × ArgCursor
  | cursor, [] => ([], cursor)
  | cursor, wantsFloat :: rest =>
    let (location, next) := argLayoutStep abi cursor wantsFloat
    let (locations, last) := argLayoutFrom abi next rest
    (location :: locations, last)

/-- The place of each argument, and the stack bytes. -/
def codeGeneratorBinaryComputeArgLayout (abi : BinaryAbi) (isFloat : List Bool) :
    List BinaryArgLocation × Nat :=
  let (locations, last) := argLayoutFrom abi ⟨0, 0, 0, 0⟩ isFloat
  (locations, last.stackCursor)

theorem argLayoutFrom_cons (abi : BinaryAbi) (cursor : ArgCursor) (wantsFloat : Bool)
    (rest : List Bool) :
    argLayoutFrom abi cursor (wantsFloat :: rest) = ((argLayoutStep abi cursor wantsFloat).1 ::
          (argLayoutFrom abi (argLayoutStep abi cursor wantsFloat).2 rest).1,
        (argLayoutFrom abi (argLayoutStep abi cursor wantsFloat).2 rest).2) := rfl

/-- What both register tables satisfy: no register is listed twice, and a shared positional
index reads tables of one length. -/
structure LawfulAbi (abi : BinaryAbi) : Prop where
  ints : abi.intParamRegisters.Nodup
  floats : abi.floatParamRegisters.Nodup
  tables : abi.countsClassesSeparately = false →
    abi.floatParamRegisters.length = abi.intParamRegisters.length
  hidden : abi.intParamRegisters[0]? = some abi.indirectReturnRegister

theorem lawfulAbi (format : BinaryTargetFormat) :
    LawfulAbi (codeGeneratorBinarySelectAbi format) := by
  cases format with
  | coffWin64 => exact ⟨by decide, by decide, fun _ => rfl, rfl⟩
  | elfX64 => exact ⟨by decide, by decide, fun h => (by cases h), rfl⟩

def ArgCursor.intIndex (cursor : ArgCursor) (abi : BinaryAbi) : Nat :=
  if abi.countsClassesSeparately then cursor.intUsed else cursor.positional

def ArgCursor.floatIndex (cursor : ArgCursor) (abi : BinaryAbi) : Nat :=
  if abi.countsClassesSeparately then cursor.floatUsed else cursor.positional

def ArgCursor.stackIndex (cursor : ArgCursor) (abi : BinaryAbi) : Nat :=
  if abi.countsClassesSeparately then cursor.stackCursor
  else (cursor.positional - abi.intParamRegisters.length) * BINARY_FUNCTION_STACK_SLOT_SIZE

attribute [local simp] ArgCursor.intIndex ArgCursor.floatIndex ArgCursor.stackIndex

/-- The locations that are still free at `cursor`. -/
def FreeAt (abi : BinaryAbi) (cursor : ArgCursor) : BinaryArgLocation → Prop
  | .inGpRegister r => ∃ k, cursor.intIndex abi ≤ k ∧ abi.intParamRegisters[k]? = some r
  | .inXmmRegister r => ∃ k, cursor.floatIndex abi ≤ k ∧ abi.floatParamRegisters[k]? = some r
  | .onStack offset => cursor.stackIndex abi ≤ offset

theorem index_unique {α : Type*} {l : List α} (hNodup : l.Nodup) {i j : Nat} {x : α}
    (hi : l[i]? = some x) (hj : l[j]? = some x) : i = j := by
  obtain ⟨hLi, rfl⟩ := List.getElem_of_getElem? hi
  obtain ⟨hLj, hEq⟩ := List.getElem_of_getElem? hj
  exact (hNodup.getElem_inj_iff.mp hEq).symm

variable {abi : BinaryAbi}

theorem argLayoutStep_free (hAbi : LawfulAbi abi) (cursor : ArgCursor) (wantsFloat : Bool) :
    FreeAt abi cursor (argLayoutStep abi cursor wantsFloat).1 ∧
      ¬ FreeAt abi (argLayoutStep abi cursor wantsFloat).2 (argLayoutStep abi cursor wantsFloat).1 ∧
      ∀ location, FreeAt abi (argLayoutStep abi cursor wantsFloat).2 location →
        FreeAt abi cursor location := by
  -- the next cursor only moves forward, which is all that the last part needs
  have hMono : ∀ next : ArgCursor, cursor.intIndex abi ≤ next.intIndex abi →
      cursor.floatIndex abi ≤ next.floatIndex abi → cursor.stackIndex abi ≤ next.stackIndex abi →
      ∀ location, FreeAt abi next location → FreeAt abi cursor location := by
    intro next hInt hFloat hStack location hFree
    cases location with
    | inGpRegister r =>
      obtain ⟨k, hk, hr⟩ := hFree
      exact ⟨k, hInt.trans hk, hr⟩
    | inXmmRegister r =>
      obtain ⟨k, hk, hr⟩ := hFree
      exact ⟨k, hFloat.trans hk, hr⟩
    | onStack offset => exact hStack.trans hFree
  unfold argLayoutStep
  by_cases hSep : abi.countsClassesSeparately = true
  · rw [if_pos hSep]
    cases wantsFloat with
    | true =>
      cases hGet : abi.floatParamRegisters[cursor.floatUsed]? with
      | some r =>
        refine ⟨⟨cursor.floatUsed, by simp [hSep], hGet⟩, ?_, ?_⟩
        · rintro ⟨k, hk, hr⟩
          have hEq := index_unique hAbi.floats hGet hr
          simp only [ArgCursor.floatIndex, hSep, if_true] at hk
          omega
        · apply hMono <;> simp [hSep]
      | none =>
        refine ⟨by simp [FreeAt, hSep], ?_, ?_⟩
        · simp [FreeAt, hSep, BINARY_FUNCTION_STACK_SLOT_SIZE]
        · apply hMono <;> simp [hSep]
    | false =>
      rw [if_neg Bool.false_ne_true]
      cases hGet : abi.intParamRegisters[cursor.intUsed]? with
      | some r =>
        refine ⟨⟨cursor.intUsed, by simp [hSep], hGet⟩, ?_, ?_⟩
        · rintro ⟨k, hk, hr⟩
          have hEq := index_unique hAbi.ints hGet hr
          simp only [ArgCursor.intIndex, hSep, if_true] at hk
          omega
        · apply hMono <;> simp [hSep]
      | none =>
        refine ⟨by simp [FreeAt, hSep], ?_, ?_⟩
        · simp [FreeAt, hSep, BINARY_FUNCTION_STACK_SLOT_SIZE]
        · apply hMono <;> simp [hSep]
  · rw [if_neg hSep]
    have hLen := hAbi.tables (by simpa using hSep)
    have hLater : ∀ next : ArgCursor, next.positional = cursor.positional + 1 →
        ∀ location, FreeAt abi next location → FreeAt abi cursor location := by
      intro next hNext
      apply hMono
      · simp [hSep, hNext]
      · simp [hSep, hNext]
      · simp only [ArgCursor.stackIndex, hSep, hNext, Bool.false_eq_true, if_false,
          BINARY_FUNCTION_STACK_SLOT_SIZE]
        omega
    by_cases hReg : cursor.positional < abi.intParamRegisters.length
    · have hInt := getElem?_eq_getElem hReg
      have hFloat := getElem?_eq_getElem (show cursor.positional <
        abi.floatParamRegisters.length by omega)
      rw [hInt, hFloat]
      cases wantsFloat with
      | true =>
        refine ⟨⟨cursor.positional, by simp [hSep], hFloat⟩, ?_, hLater _ rfl⟩
        rintro ⟨k, hk, hr⟩
        have hEq := index_unique hAbi.floats hFloat hr
        simp [hSep] at hk
        omega
      | false =>
        refine ⟨⟨cursor.positional, by simp [hSep], hInt⟩, ?_, hLater _ rfl⟩
        rintro ⟨k, hk, hr⟩
        have hEq := index_unique hAbi.ints hInt hr
        simp [hSep] at hk
        omega
    · have hInt := getElem?_eq_none (show abi.intParamRegisters.length ≤ cursor.positional by
        omega)
      rw [hInt]
      refine ⟨by simp [FreeAt, hSep], ?_, hLater _ rfl⟩
      simp only [FreeAt, ArgCursor.stackIndex, hSep, Bool.false_eq_true, if_false,
        BINARY_FUNCTION_STACK_SLOT_SIZE]
      omega

/-- **No two arguments share a place.** -/
theorem nodup_argLayoutFrom (hAbi : LawfulAbi abi) (isFloat : List Bool) (cursor : ArgCursor) :
    (argLayoutFrom abi cursor isFloat).1.Nodup ∧
      ∀ location ∈ (argLayoutFrom abi cursor isFloat).1, FreeAt abi cursor location := by
  induction isFloat generalizing cursor with
  | nil => exact ⟨nodup_nil, fun location h => by cases h⟩
  | cons wantsFloat rest ih =>
    obtain ⟨hTaken, hGone, hMono⟩ := argLayoutStep_free hAbi cursor wantsFloat
    obtain ⟨hNodup, hFree⟩ := ih (argLayoutStep abi cursor wantsFloat).2
    constructor
    · exact nodup_cons.mpr ⟨fun hMem => hGone (hFree _ hMem), hNodup⟩
    · intro location hMem
      rcases mem_cons.mp hMem with rfl | hRest
      · exact hTaken
      · exact hMono location (hFree location hRest)

/-! ## When SysV spills -/

def FitsRegisters (abi : BinaryAbi) (isFloat : List Bool) : Prop :=
  isFloat.count false ≤ abi.intParamRegisters.length ∧
    isFloat.count true ≤ abi.floatParamRegisters.length

instance (abi : BinaryAbi) (isFloat : List Bool) : Decidable (FitsRegisters abi isFloat) :=
  inferInstanceAs (Decidable (_ ∧ _))

theorem onStack_argLayoutFrom_iff (hSep : abi.countsClassesSeparately = true) (isFloat : List Bool)
    (cursor : ArgCursor) (hInt : cursor.intUsed ≤ abi.intParamRegisters.length)
    (hFloat : cursor.floatUsed ≤ abi.floatParamRegisters.length) :
    (∃ offset, .onStack offset ∈ (argLayoutFrom abi cursor isFloat).1) ↔
      ¬ (cursor.intUsed + isFloat.count false ≤ abi.intParamRegisters.length ∧
        cursor.floatUsed + isFloat.count true ≤ abi.floatParamRegisters.length) := by
  induction isFloat generalizing cursor with
  | nil =>
    constructor
    · rintro ⟨offset, hMem⟩
      cases hMem
    · intro h
      exact absurd ⟨hInt, hFloat⟩ h
  | cons wantsFloat rest ih =>
    rw [argLayoutFrom_cons]
    unfold argLayoutStep
    rw [if_pos hSep]
    cases wantsFloat with
    | true =>
      rw [if_pos rfl, count_cons_of_ne (by decide), count_cons_self]
      by_cases hRoom : cursor.floatUsed < abi.floatParamRegisters.length
      · rw [getElem?_eq_getElem hRoom]
        have hRest := ih { cursor with floatUsed := cursor.floatUsed + 1 } hInt hRoom
        simp only [mem_cons, reduceCtorEq, false_or]
        rw [hRest]
        dsimp only
        omega
      · rw [getElem?_eq_none (by omega)]
        constructor
        · intro _ h
          omega
        · intro _
          exact ⟨_, mem_cons_self⟩
    | false =>
      rw [if_neg Bool.false_ne_true, count_cons_self, count_cons_of_ne (by decide)]
      by_cases hRoom : cursor.intUsed < abi.intParamRegisters.length
      · rw [getElem?_eq_getElem hRoom]
        have hRest := ih { cursor with intUsed := cursor.intUsed + 1 } hRoom hFloat
        simp only [mem_cons, reduceCtorEq, false_or]
        rw [hRest]
        dsimp only
        omega
      · rw [getElem?_eq_none (by omega)]
        constructor
        · intro _ h
          omega
        · intro _
          exact ⟨_, mem_cons_self⟩

theorem onStack_computeArgLayout_iff (hSep : abi.countsClassesSeparately = true)
    (isFloat : List Bool) :
    (∃ offset, .onStack offset ∈ (codeGeneratorBinaryComputeArgLayout abi isFloat).1) ↔
      ¬ FitsRegisters abi isFloat := by
  have h := onStack_argLayoutFrom_iff hSep isFloat ⟨0, 0, 0, 0⟩ (Nat.zero_le _) (Nat.zero_le _)
  simp only [Nat.zero_add] at h
  exact h

end Mettle.Codegen
