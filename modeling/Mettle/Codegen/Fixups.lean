import Mettle.Lib.Bytes
import Mettle.Codegen.StrengthReduction

/-!
# Mettle — labels and branch fixups of the binary back end

While a function is emitted a label records the size of the code so far, and a jump, a branch
or a rip-relative reference leaves four zero bytes and records where they stand. After the
epilogue `code_generator_binary_resolve_fixups` writes the displacements. The fused patterns of
the driver take labels and branches away before either table sees them.

The code of an instruction besides its IR label or branch is a parameter: the labels it makes
for itself come from `code_generator_generate_label`, whose names start with an `L` (no name
that the lowering or the optimizer gives a label does).
-/

namespace Mettle.Codegen

open Mettle.Lib Mettle.IR List Option

-- ---
-- The tables
-- ---

def INT32_MAX : Int := 2 ^ 31 - 1

/-- The labels and their offsets. -/
abbrev BinaryLabelTable := List (String × Nat)

/-- The offset of a label. -/
def binaryLabelTableGet (table : BinaryLabelTable) (name : String) : Option Nat :=
  table.lookup name

/-- Enters a label once. -/
def binaryLabelTableDefine (table : BinaryLabelTable) (name : String) (offset : Nat) :
    Option BinaryLabelTable :=
  if (binaryLabelTableGet table name).isSome then none else some (table ++ [(name, offset)])

/-- What an emission appends to the function. -/
inductive EmitEvent
  | bytes (data : List UInt8)
  -- a label, with the error if it cannot be defined
  | label (name failure : String)
  -- an instruction that ends in a displacement to a label
  | reference (opcode : List UInt8) (name : String)
  | returnJump
  | fail (message : String)
  deriving DecidableEq

def EmitEvent.code : EmitEvent → List UInt8
  | .bytes data => data
  | .label _ _ => []
  | .reference opcode _ => opcode ++ [0, 0, 0, 0]
  | .returnJump => [0xE9, 0, 0, 0, 0]
  | .fail _ => []

/-- The part of the function context that the fixups are about. -/
structure EmissionState where
  code : List UInt8 := []
  labels : BinaryLabelTable := []
  labelFixups : List (String × Nat) := []
  returnFixups : List Nat := []
  deriving DecidableEq

/-- What one event adds to the buffer and the tables. -/
def emitEvent (s : EmissionState) (e : EmitEvent) : Except String EmissionState :=
  match e with
  | .bytes _ => .ok { s with code := s.code ++ e.code }
  | .label name failure =>
    match binaryLabelTableDefine s.labels name s.code.length with
    | none => .error failure
    | some labels => .ok { s with labels }
  | .reference opcode name =>
    .ok { s with code := s.code ++ e.code
                 labelFixups := s.labelFixups ++ [(name, s.code.length + opcode.length)] }
  | .returnJump =>
    .ok { s with code := s.code ++ e.code, returnFixups := s.returnFixups ++ [s.code.length + 1] }
  | .fail message => .error message

def emitEvents (s : EmissionState) (events : List EmitEvent) : Except String EmissionState :=
  events.foldlM emitEvent s

-- ---
-- Resolving
-- ---

/-- `binary_function_context_patch_rel32`. -/
def patchRel32 (code : List UInt8) (displacementOffset targetOffset : Nat) : Option (List UInt8) :=
  if displacementOffset + 4 > code.length then none
  else
    let delta : Int := targetOffset - (displacementOffset + 4 : Nat)
    if delta < INT32_MIN ∨ delta > INT32_MAX then none
    else some (patch code displacementOffset (leBytes 4 (delta % 2 ^ 32).toNat))

def resolveLabelFixup (functionName : String) (labels : BinaryLabelTable) (code : List UInt8)
    (fixup : String × Nat) : Except String (List UInt8) :=
  match binaryLabelTableGet labels fixup.1 with
  | none =>
    .error ("Undefined IR label '" ++ fixup.1 ++ "' in direct object function '" ++
      functionName ++ "'")
  | some offset =>
    match patchRel32 code fixup.2 offset with
    | none =>
      .error ("Branch target out of range while lowering function '" ++ functionName ++ "'")
    | some code => .ok code

def resolveReturnFixup (functionName : String) (returnOffset : Nat) (code : List UInt8)
    (displacementOffset : Nat) : Except String (List UInt8) :=
  match patchRel32 code displacementOffset returnOffset with
  | none => .error ("Return target out of range while lowering function '" ++ functionName ++ "'")
  | some code => .ok code

/-- `code_generator_binary_resolve_fixups`. -/
def resolveFixups (functionName : String) (s : EmissionState) (returnOffset : Nat) :
    Except String (List UInt8) := do
  let code ← s.labelFixups.foldlM (resolveLabelFixup functionName s.labels) s.code
  s.returnFixups.foldlM (resolveReturnFixup functionName returnOffset) code

/-- Where the instruction that ends in the displacement at `displacementOffset` goes: the
displacement counts from the byte behind it. -/
def branchTarget (code : List UInt8) (displacementOffset : Nat) : Int :=
  (displacementOffset + 4 : Nat) + Int.bmod (leNat (slice code displacementOffset 4)) (2 ^ 32)

-- ---
-- The function
-- ---

/-- A name of `code_generator_generate_label`. -/
def isGenerated (name : String) : Bool := name.toList.head? == some 'L'

def EmitEvent.isLocal : EmitEvent → Bool
  | .bytes _ => true
  | .label name _ => isGenerated name
  | .reference _ name => isGenerated name
  | .returnJump => false
  | .fail _ => true

/-- The rest of the emitter: the code around the labels and branches of the IR. -/
structure FunctionEmitter where
  functionName : String
  keepsWord : String → Bool
  prologue : List UInt8
  body : Nat → List EmitEvent
  runtimeEndLabel : Option String
  epilogue : List UInt8
  body_local : ∀ i, ∀ e ∈ body i, e.isLocal = true
  endLabel_generated : ∀ name, runtimeEndLabel = some name → isGenerated name = true

section Function

variable (emitter : FunctionEmitter) (function : IRFunction)

def textAt (i : Nat) : String := ((function.instructions[i]?).bind (·.text)).getD ""

def falseBranch (compare branch : Nat) : EmitEvent :=
  .reference [0x0F, UInt8.ofNat ((compareFalseJcc (textAt function compare)).getD 0)]
    (textAt function branch)

def plainTail (instruction : IRInstruction) : List EmitEvent :=
  let text := instruction.text.getD ""
  let malformed (what : String) : List EmitEvent :=
    [.fail ("Malformed IR " ++ what ++ " in function '" ++ emitter.functionName ++ "'")]
  match instruction.op with
  | .label =>
    if text = "" then malformed "label"
    else
      [.label text ("Duplicate or invalid IR label '" ++ text ++ "' in function '" ++
        emitter.functionName ++ "'")]
  | .jump => if text = "" then malformed "jump target" else [.reference [0xE9] text]
  | .branchZero | .branchEq =>
    if text = "" then malformed "branch target" else [.reference [0x0F, 0x84] text]
  | .return_ => [.returnJump]
  | _ => []

def unitTail (unit : Nat × Emission) : List EmitEvent :=
  match unit.2 with
  | .chain 3 => [falseBranch function (unit.1 + 1) (unit.1 + 2)]
  | .chain 2 =>
    if matchesCastChain emitter.keepsWord function unit.1 ∨ matchesExpressionChain function unit.1
    then [] else [falseBranch function unit.1 (unit.1 + 1)]
  | .plain =>
    match function.instructions[unit.1]? with
    | some instruction => plainTail emitter instruction
    | none => []
  | _ => []

def unitEvents (unit : Nat × Emission) : List EmitEvent :=
  emitter.body unit.1 ++ unitTail emitter function unit

def units : List (Nat × Emission) := emitBinaryFunction emitter.keepsWord function

def endLabelEvents : List EmitEvent :=
  match emitter.runtimeEndLabel with
  | some name =>
    [.label name ("Failed to define runtime function end label in function '" ++
      emitter.functionName ++ "'")]
  | none => []

def functionEvents : List EmitEvent :=
  .bytes emitter.prologue :: (units emitter function).flatMap (unitEvents emitter function) ++
    endLabelEvents emitter

/-- `code_generator_emit_binary_function`, up to the code that goes to the text section. -/
def emitBinaryFunctionCode : Except String (List UInt8) := do
  let s ← emitEvents {} (functionEvents emitter function)
  resolveFixups emitter.functionName { s with code := s.code ++ emitter.epilogue } s.code.length

end Function

-- ---
-- Displacements
-- ---

def InRange (displacementOffset targetOffset : Nat) : Prop :=
  INT32_MIN ≤ (targetOffset : Int) - (displacementOffset + 4 : Nat) ∧
    (targetOffset : Int) - (displacementOffset + 4 : Nat) ≤ INT32_MAX

variable {code code' : List UInt8}

variable {d : Nat}

theorem patchRel32_eq_some {t : Nat} (h : patchRel32 code d t = some code') :
    d + 4 ≤ code.length ∧ InRange d t ∧
      code' = patch code d (leBytes 4 (((t : Int) - (d + 4 : Nat)) % 2 ^ 32).toNat) := by
  unfold patchRel32 at h
  split at h
  · cases h
  · rename_i hFits
    dsimp only at h
    split at h
    · cases h
    · rename_i hRange
      refine ⟨by omega, ⟨?_, ?_⟩, (some.inj h).symm⟩ <;> omega

theorem bmod_displacement {delta : Int} (hLow : INT32_MIN ≤ delta) (hHigh : delta ≤ INT32_MAX) :
    Int.bmod (leNat (leBytes 4 (delta % 2 ^ 32).toNat)) (2 ^ 32) = delta := by
  unfold INT32_MIN at hLow
  unfold INT32_MAX at hHigh
  have hNat : ((delta % 2 ^ 32).toNat : Int) = delta % (2 ^ 32 : Nat) := by
    have hNonneg : 0 ≤ delta % 2 ^ 32 := by omega
    rw [Int.toNat_of_nonneg hNonneg]
    norm_num
  have hLt : (delta % 2 ^ 32).toNat < 256 ^ 4 := by omega
  rw [leNat_leBytes_of_lt hLt, hNat, Int.emod_bmod]
  exact Int.bmod_eq_of_le (by omega) (by omega)

theorem branchTarget_of_slice {t : Nat} (hRange : InRange d t)
    (hSlice : slice code d 4 = leBytes 4 (((t : Int) - (d + 4 : Nat)) % 2 ^ 32).toNat) :
    branchTarget code d = t := by
  have hDelta := bmod_displacement hRange.1 hRange.2
  unfold branchTarget
  rw [hSlice, hDelta]
  exact add_sub_cancel _ _

def Apart (d d' : Nat) : Prop := d + 4 ≤ d' ∨ d' + 4 ≤ d

def patchFields (code : List UInt8) (fields : List (Nat × Nat)) : Option (List UInt8) :=
  fields.foldlM (fun code field => patchRel32 code field.1 field.2) code

/-- **The fixups do not disturb each other.** -/
theorem patchFields_spec {fields : List (Nat × Nat)} (hApart : (fields.map Prod.fst).Pairwise Apart)
    (h : patchFields code fields = some code') :
    code'.length = code.length ∧
      (∀ field ∈ fields, InRange field.1 field.2 ∧ branchTarget code' field.1 = field.2) ∧
      ∀ o l, (∀ field ∈ fields, o + l ≤ field.1 ∨ field.1 + 4 ≤ o) →
        slice code' o l = slice code o l := by
  induction fields generalizing code with
  | nil =>
    cases h
    exact ⟨rfl, fun _ hMem => absurd hMem (not_mem_nil), fun _ _ _ => rfl⟩
  | cons field rest ih =>
    obtain ⟨mid, hMid, hRest⟩ := bind_eq_some_iff.mp h
    rw [map_cons, pairwise_cons] at hApart
    obtain ⟨hLength, hTargets, hFrame⟩ := ih hApart.2 hRest
    obtain ⟨hFits, hRange, hPatched⟩ := patchRel32_eq_some hMid
    have hBytes : ∀ n : Nat, field.1 + (leBytes 4 n).length ≤ code.length := by
      intro n
      exact hFits
    refine ⟨by rw [hLength, hPatched, length_patch (hBytes _)], ?_, ?_⟩
    · intro other hMem
      rcases mem_cons.mp hMem with rfl | hOther
      · refine ⟨hRange, branchTarget_of_slice hRange ?_⟩
        -- the later fixups leave this field alone
        have hKept : slice code' other.1 4 = slice mid other.1 4 := by
          refine hFrame _ _ ?_
          intro later hLater
          exact hApart.1 _ (mem_map_of_mem hLater)
        have hSelf := slice_patch_self
          (hBytes (((other.2 : Int) - (other.1 + 4 : Nat)) % 2 ^ 32).toNat)
        rw [length_leBytes] at hSelf
        rw [hKept, hPatched, hSelf]
      · exact hTargets other hOther
    · intro o l hOutside
      rw [hFrame o l fun later hLater => hOutside later (mem_cons_of_mem _ hLater), hPatched]
      refine slice_patch_of_disjoint (hBytes _) ?_
      exact hOutside field mem_cons_self

-- ---
-- What the tables hold
-- ---

def codeSize (events : List EmitEvent) : Nat := (events.flatMap EmitEvent.code).length

@[simp] theorem codeSize_nil : codeSize [] = 0 := rfl

@[simp] theorem codeSize_cons (e : EmitEvent) (events : List EmitEvent) :
    codeSize (e :: events) = e.code.length + codeSize events := by
  simp [codeSize]

@[simp] theorem codeSize_append (first second : List EmitEvent) :
    codeSize (first ++ second) = codeSize first + codeSize second := by
  simp [codeSize]

/-- What `f` finds in the events, given the offset of each. -/
def collectAt {β : Type} (f : Nat → EmitEvent → Option β) : Nat → List EmitEvent → List β
  | _, [] => []
  | offset, e :: rest => (f offset e).toList ++ collectAt f (offset + e.code.length) rest

variable {events : List EmitEvent}

variable {offset : Nat}

theorem mem_collectAt {β : Type} {f : Nat → EmitEvent → Option β} {x : β} :
    x ∈ collectAt f offset events ↔
      ∃ front e back, events = front ++ e :: back ∧ f (offset + codeSize front) e = some x := by
  induction events generalizing offset with
  | nil =>
    refine ⟨fun h => absurd h not_mem_nil, ?_⟩
    rintro ⟨front, e, back, hSplit, -⟩
    exact absurd hSplit.symm (by simp)
  | cons first rest ih =>
    rw [collectAt, mem_append, ih, mem_toList]
    constructor
    · rintro (hHere | ⟨front, e, back, rfl, hFound⟩)
      · exact ⟨[], first, rest, rfl, hHere⟩
      · refine ⟨first :: front, e, back, rfl, ?_⟩
        rw [codeSize_cons, ← Nat.add_assoc]
        exact hFound
    · rintro ⟨front, e, back, hSplit, hFound⟩
      cases front with
      | nil =>
        cases hSplit
        exact Or.inl hFound
      | cons _ front =>
        cases hSplit
        rw [codeSize_cons, ← Nat.add_assoc] at hFound
        exact Or.inr ⟨front, e, back, rfl, hFound⟩

def labelOf (offset : Nat) : EmitEvent → Option (String × Nat)
  | .label name _ => some (name, offset)
  | _ => none

def labelFixupOf (offset : Nat) : EmitEvent → Option (String × Nat)
  | .reference opcode name => some (name, offset + opcode.length)
  | _ => none

def returnFixupOf (offset : Nat) : EmitEvent → Option Nat
  | .returnJump => some (offset + 1)
  | _ => none

def fieldOf (offset : Nat) : EmitEvent → Option Nat
  | .reference opcode _ => some (offset + opcode.length)
  | .returnJump => some (offset + 1)
  | _ => none

variable {name : String}

theorem mem_of_lookup_label {table : BinaryLabelTable} (h : table.lookup name = some offset)
    : (name, offset) ∈ table := by
  obtain ⟨before, after, rfl, -⟩ := lookup_eq_some_iff.mp h
  exact mem_append_right _ mem_cons_self

theorem binaryLabelTableDefine_eq_some {table table' : BinaryLabelTable}
    (h : binaryLabelTableDefine table name offset = some table') :
    table' = table ++ [(name, offset)] ∧ name ∉ table.map Prod.fst := by
  unfold binaryLabelTableDefine binaryLabelTableGet at h
  split at h
  · cases h
  · rename_i hNew
    refine ⟨(some.inj h).symm, ?_⟩
    intro hMem
    obtain ⟨entry, hEntry, rfl⟩ := mem_map.mp hMem
    have hNone : table.lookup entry.1 = none := not_isSome_iff_eq_none.mp hNew
    have hDiffer := List.lookup_eq_none_iff.mp hNone entry hEntry
    simp at hDiffer

variable {s : EmissionState}

/-- **The tables.** -/
theorem emitEvents_spec {s' : EmissionState} (h : emitEvents s events = .ok s') :
    s'.code = s.code ++ events.flatMap EmitEvent.code ∧
      s'.labels = s.labels ++ collectAt labelOf s.code.length events ∧
      s'.labelFixups = s.labelFixups ++ collectAt labelFixupOf s.code.length events ∧
      s'.returnFixups = s.returnFixups ++ collectAt returnFixupOf s.code.length events ∧
      ((s.labels.map Prod.fst).Nodup → (s'.labels.map Prod.fst).Nodup) := by
  induction events generalizing s with
  | nil =>
    cases h
    simp [collectAt]
  | cons e rest ih =>
    rw [emitEvents, foldlM_cons] at h
    cases e with
    | label name failure =>
      rw [emitEvent] at h
      cases hDefine : binaryLabelTableDefine s.labels name s.code.length with
      | none =>
        rw [hDefine] at h
        cases h
      | some labels =>
        rw [hDefine] at h
        obtain ⟨hCode, hLabels, hFixups, hReturns, hNodup⟩ := ih h
        obtain ⟨rfl, hNew⟩ := binaryLabelTableDefine_eq_some hDefine
        refine ⟨by simpa [EmitEvent.code] using hCode,
          by simpa [collectAt, labelOf, EmitEvent.code] using hLabels,
          by simpa [collectAt, labelFixupOf, EmitEvent.code] using hFixups,
          by simpa [collectAt, returnFixupOf, EmitEvent.code] using hReturns, ?_⟩
        intro hOld
        refine hNodup ?_
        rw [map_append, nodup_append]
        refine ⟨hOld, by simp, ?_⟩
        rintro a ha b hb rfl
        rw [map_singleton, mem_singleton] at hb
        rw [hb] at ha
        exact hNew ha
    | fail message => cases h
    | _ =>
      obtain ⟨hCode, hLabels, hFixups, hReturns, hNodup⟩ := ih h
      refine ⟨?_, ?_, ?_, ?_, hNodup⟩
      · simpa using hCode
      · simpa [collectAt, labelOf] using hLabels
      · simpa [collectAt, labelFixupOf] using hFixups
      · simpa [collectAt, returnFixupOf] using hReturns

theorem fixups_perm (offset : Nat) (events : List EmitEvent) :
    ((collectAt labelFixupOf offset events).map Prod.snd ++
      collectAt returnFixupOf offset events).Perm (collectAt fieldOf offset events) := by
  induction events generalizing offset with
  | nil => exact .refl _
  | cons e rest ih =>
    have hRest := ih (offset + e.code.length)
    cases e with
    | reference opcode name => exact hRest.cons _
    | returnJump => exact perm_middle.trans (hRest.cons _)
    | _ => exact hRest

variable {e : EmitEvent}

theorem fieldOf_bounds (h : fieldOf offset e = some d) :
    offset ≤ d ∧ d + 4 ≤ offset + e.code.length := by
  cases e with
  | reference opcode name =>
    cases h
    simp [EmitEvent.code]
    omega
  | returnJump =>
    cases h
    simp [EmitEvent.code]
  | _ => cases h

theorem collectAt_field_bounds (h : d ∈ collectAt fieldOf offset events) :
    offset ≤ d ∧ d + 4 ≤ offset + codeSize events := by
  obtain ⟨front, e, back, rfl, hField⟩ := mem_collectAt.mp h
  have hBounds := fieldOf_bounds hField
  rw [codeSize_append, codeSize_cons]
  omega

theorem collectAt_field_apart (offset : Nat) (events : List EmitEvent) :
    (collectAt fieldOf offset events).Pairwise Apart := by
  induction events generalizing offset with
  | nil => exact List.Pairwise.nil
  | cons e rest ih =>
    refine pairwise_append.mpr ⟨?_, ih _, ?_⟩
    · cases fieldOf offset e <;> simp
    · intro d hd d' hd'
      have hHere := fieldOf_bounds (mem_toList.mp hd)
      have hLater := collectAt_field_bounds hd'
      exact Or.inl (by omega)

theorem fixups_apart (offset : Nat) (events : List EmitEvent) :
    ((collectAt labelFixupOf offset events).map Prod.snd ++
      collectAt returnFixupOf offset events).Pairwise Apart := by
  have hSymm : ∀ {d d' : Nat}, Apart d d' → Apart d' d := fun h => h.symm
  exact ((fixups_perm offset events).pairwise_iff hSymm).mpr (collectAt_field_apart offset events)

-- ---
-- Resolved fixups
-- ---

theorem foldlM_patches {α : Type} {step : List UInt8 → α → Except String (List UInt8)}
    (field : α → Nat × Nat) (checked : α → Prop) (hStep : ∀ code code' x, step code x = .ok code' →
      checked x ∧ patchRel32 code (field x).1 (field x).2 = some code') {xs : List α}
    (h : xs.foldlM step code = .ok code') :
    (∀ x ∈ xs, checked x) ∧ patchFields code (xs.map field) = some code' := by
  induction xs generalizing code with
  | nil =>
    cases h
    exact ⟨fun _ hMem => absurd hMem not_mem_nil, rfl⟩
  | cons x rest ih =>
    rw [foldlM_cons] at h
    cases hHere : step code x with
    | error message =>
      rw [hHere] at h
      cases h
    | ok mid =>
      rw [hHere] at h
      obtain ⟨hChecked, hPatched⟩ := hStep _ _ _ hHere
      obtain ⟨hRest, hFields⟩ := ih h
      refine ⟨?_, ?_⟩
      · intro y hMem
        rcases mem_cons.mp hMem with rfl | hLater
        · exact hChecked
        · exact hRest y hLater
      · rw [map_cons, patchFields, foldlM_cons, hPatched]
        exact hFields

def labelField (labels : BinaryLabelTable) (fixup : String × Nat) : Nat × Nat :=
  (fixup.2, (binaryLabelTableGet labels fixup.1).getD 0)

variable {functionName : String}

theorem resolveLabelFixup_ok {labels : BinaryLabelTable} {fixup : String × Nat}
    (h : resolveLabelFixup functionName labels code fixup = .ok code') :
    (binaryLabelTableGet labels fixup.1).isSome = true ∧
      patchRel32 code (labelField labels fixup).1 (labelField labels fixup).2 = some code' := by
  unfold resolveLabelFixup at h
  unfold labelField
  split at h
  · cases h
  · rename_i offset hGet
    rw [hGet]
    split at h
    · cases h
    · rename_i patched hPatched
      cases h
      exact ⟨rfl, hPatched⟩

theorem resolveReturnFixup_ok {returnOffset : Nat}
    (h : resolveReturnFixup functionName returnOffset code d = .ok code') :
    True ∧ patchRel32 code d returnOffset = some code' := by
  unfold resolveReturnFixup at h
  split at h
  · cases h
  · rename_i patched hPatched
    cases h
    exact ⟨trivial, hPatched⟩

theorem resolveFixups_ok {returnOffset : Nat}
    (h : resolveFixups functionName s returnOffset = .ok code) :
    (∀ fixup ∈ s.labelFixups, (binaryLabelTableGet s.labels fixup.1).isSome = true) ∧
      patchFields s.code (s.labelFixups.map (labelField s.labels) ++
        s.returnFixups.map fun d => (d, returnOffset)) = some code := by
  unfold resolveFixups at h
  cases hLabels : s.labelFixups.foldlM (resolveLabelFixup functionName s.labels) s.code with
  | error message =>
    rw [hLabels] at h
    cases h
  | ok mid =>
    rw [hLabels] at h
    obtain ⟨hDefined, hFirst⟩ := foldlM_patches (labelField s.labels)
      (fun fixup => (binaryLabelTableGet s.labels fixup.1).isSome = true)
      (fun _ _ _ => resolveLabelFixup_ok) hLabels
    obtain ⟨-, hSecond⟩ := foldlM_patches (fun d => (d, returnOffset)) (fun _ => True)
      (fun _ _ _ => resolveReturnFixup_ok) h
    refine ⟨hDefined, ?_⟩
    unfold patchFields at hFirst hSecond ⊢
    rw [foldlM_append, hFirst]
    exact hSecond

/-- What holds of the code after the fixups, told by the events alone. -/
structure FixupsLand (events : List EmitEvent) (epilogue code : List UInt8) : Prop where
  /-- Every reference goes to the offset of its label. -/
  references : ∀ before opcode name after, events = before ++ .reference opcode name :: after →
    ∃ front failure back, events = front ++ .label name failure :: back ∧
      branchTarget code (codeSize before + opcode.length) = codeSize front
  /-- Every return jump goes to the epilogue. -/
  returns : ∀ before after, events = before ++ .returnJump :: after →
    branchTarget code (codeSize before + 1) = codeSize events
  /-- A label has one definition. -/
  labels_once : ∀ name front failure back front' failure' back',
    events = front ++ .label name failure :: back →
      events = front' ++ .label name failure' :: back' → front = front'
  /-- Every distance fits. -/
  in_range : ∀ before opcode name after front failure back,
    events = before ++ .reference opcode name :: after →
      events = front ++ .label name failure :: back →
        InRange (codeSize before + opcode.length) (codeSize front)
  return_in_range : ∀ before after, events = before ++ .returnJump :: after →
    InRange (codeSize before + 1) (codeSize events)
  /-- Only displacement fields change. -/
  others : code.length = codeSize events + epilogue.length ∧
    ∀ o l, (∀ d ∈ collectAt fieldOf 0 events, o + l ≤ d ∨ d + 4 ≤ o) →
      slice code o l = slice (events.flatMap EmitEvent.code ++ epilogue) o l
  epilogue_kept : slice code (codeSize events) epilogue.length = epilogue

def labelName : EmitEvent → Option String
  | .label name _ => some name
  | _ => none

theorem collectAt_labels (offset : Nat) (events : List EmitEvent) :
    (collectAt labelOf offset events).map Prod.fst = events.filterMap labelName := by
  induction events generalizing offset with
  | nil => rfl
  | cons e rest ih =>
    rw [collectAt, map_append, ih, filterMap_cons]
    cases e <;> rfl

variable {failure : String}

theorem label_split_unique {front back front' back' : List EmitEvent} {failure' : String}
    (hNodup : (events.filterMap labelName).Nodup)
    (h : events = front ++ .label name failure :: back)
    (h' : events = front' ++ .label name failure' :: back') : front = front' := by
  induction front generalizing events front' with
  | nil =>
    cases front' with
    | nil => rfl
    | cons e rest' =>
      subst h
      obtain ⟨rfl, hBack⟩ := cons.inj h'
      refine absurd ?_ (nodup_cons.mp hNodup).1
      exact mem_filterMap.mpr ⟨.label name failure', by simp [hBack], rfl⟩
  | cons first rest ih =>
    subst h
    cases front' with
    | nil =>
      obtain ⟨rfl, -⟩ := cons.inj h'
      refine absurd ?_ (nodup_cons.mp hNodup).1
      exact mem_filterMap.mpr ⟨.label name failure, by simp, rfl⟩
    | cons e rest' =>
      obtain ⟨rfl, hRest⟩ := cons.inj h'
      have hTail : ((rest ++ .label name failure :: back).filterMap labelName).Nodup := by
        refine hNodup.sublist ?_
        exact (sublist_cons_self first _).filterMap _
      rw [ih hTail rfl hRest]

/-- **Resolved code.** -/
theorem fixupsLand_of_ok {epilogue : List UInt8} (hEmit : emitEvents {} events = .ok s) (hResolve :
      resolveFixups functionName { s with code := s.code ++ epilogue } s.code.length = .ok code)
    : FixupsLand events epilogue code := by
  obtain ⟨hCode, hLabels, hFixups, hReturns, hNodup⟩ := emitEvents_spec hEmit
  simp only [nil_append, length_nil] at hCode hLabels hFixups hReturns
  have hNames : (events.filterMap labelName).Nodup := by
    rw [← collectAt_labels 0, ← hLabels]
    exact hNodup nodup_nil
  have hSize : s.code.length = codeSize events := by rw [hCode, codeSize]
  obtain ⟨hDefined, hPatched⟩ := resolveFixups_ok hResolve
  rw [hFixups, hReturns, hSize] at hPatched
  have hFields : ((collectAt labelFixupOf 0 events).map (labelField s.labels) ++
      (collectAt returnFixupOf 0 events).map fun d => (d, codeSize events)).map Prod.fst =
      (collectAt labelFixupOf 0 events).map Prod.snd ++ collectAt returnFixupOf 0 events := by
    rw [List.map_append, List.map_map, List.map_map]
    congr 1
    exact map_id _
  obtain ⟨hLength, hTargets, hFrame⟩ := patchFields_spec
    (by rw [hFields]; exact fixups_apart 0 events) hPatched
  -- a reference: its fixup, the label found for it and the event that defined the label
  have hReference : ∀ before opcode name after, events = before ++ .reference opcode name :: after →
      ∃ front failure back, events = front ++ .label name failure :: back ∧
        InRange (codeSize before + opcode.length) (codeSize front) ∧
        branchTarget code (codeSize before + opcode.length) = codeSize front := by
    intro before opcode name after hSplit
    have hMem : (name, codeSize before + opcode.length) ∈ collectAt labelFixupOf 0 events :=
      mem_collectAt.mpr ⟨before, _, after, hSplit, by rw [Nat.zero_add]; rfl⟩
    obtain ⟨offset, hGet⟩ := isSome_iff_exists.mp (hDefined _ (hFixups ▸ hMem))
    have hTable : (name, offset) ∈ collectAt labelOf 0 events := by
      rw [← hLabels]
      exact mem_of_lookup_label hGet
    obtain ⟨front, e, back, hFront, hLabel⟩ := mem_collectAt.mp hTable
    cases e with
    | label other failure =>
      rw [labelOf, Nat.zero_add, some.injEq, Prod.mk.injEq] at hLabel
      obtain ⟨rfl, hOffset⟩ := hLabel
      have hTarget := hTargets (labelField s.labels (other, codeSize before + opcode.length))
        (mem_append_left _ (mem_map_of_mem hMem))
      unfold labelField at hTarget
      rw [hGet, getD_some, ← hOffset] at hTarget
      exact ⟨front, failure, back, hFront, hTarget⟩
    | _ => cases hLabel
  have hReturn : ∀ before after, events = before ++ .returnJump :: after →
      InRange (codeSize before + 1) (codeSize events) ∧
        branchTarget code (codeSize before + 1) = codeSize events := by
    intro before after hSplit
    have hMem : codeSize before + 1 ∈ collectAt returnFixupOf 0 events :=
      mem_collectAt.mpr ⟨before, _, after, hSplit, by rw [Nat.zero_add]; rfl⟩
    exact hTargets (codeSize before + 1, codeSize events)
      (mem_append_right _ (mem_map.mpr ⟨_, hMem, rfl⟩))
  have hOthers : ∀ o l, (∀ d ∈ collectAt fieldOf 0 events, o + l ≤ d ∨ d + 4 ≤ o) →
      slice code o l = slice (events.flatMap EmitEvent.code ++ epilogue) o l := by
    intro o l hOutside
    rw [← hCode]
    refine hFrame o l ?_
    intro field hMem
    refine hOutside field.1 ?_
    refine (fixups_perm 0 events).subset ?_
    rw [← hFields]
    exact mem_map_of_mem hMem
  refine ⟨?_, ?_, ?_, ?_, ?_, ⟨?_, hOthers⟩, ?_⟩
  · intro before opcode name after hSplit
    obtain ⟨front, failure, back, hFront, -, hTarget⟩ := hReference _ _ _ _ hSplit
    exact ⟨front, failure, back, hFront, hTarget⟩
  · intro before after hSplit
    exact (hReturn before after hSplit).2
  · intro name front failure back front' failure' back' h h'
    exact label_split_unique hNames h h'
  · intro before opcode name after front failure back hSplit hFront
    obtain ⟨front', failure', back', hFront', hRange, -⟩ := hReference _ _ _ _ hSplit
    rw [label_split_unique hNames hFront hFront']
    exact hRange
  · intro before after hSplit
    exact (hReturn before after hSplit).1
  · rw [hLength, length_append, hSize]
  · -- every field lies in front of the epilogue
    rw [hOthers]
    · rw [codeSize, slice_append_skip (Nat.le_refl _), Nat.sub_self]
      exact slice_zero_self rfl
    · intro d hMem
      have hBounds := collectAt_field_bounds hMem
      omega

-- ---
-- Branches of the IR
-- ---

def JumpsToIrLabels (function : IRFunction) : Prop :=
  ∀ c ∈ function.instructions, ∀ name, jumpsTo c (some name) → isGenerated name = false

variable {j k : Nat} {opcode : List UInt8} {emission : Emission}

section Branches

variable {emitter : FunctionEmitter} {function : IRFunction}

/-- Where the tail of the unit at `i` starts, after the units in `before`. -/
def tailOffset (emitter : FunctionEmitter) (function : IRFunction) (before : List (Nat × Emission))
    (i : Nat) : Nat :=
  emitter.prologue.length + codeSize (before.flatMap (unitEvents emitter function)) +
    codeSize (emitter.body i)

variable {name : String}

theorem textAt_of_text {c : IRInstruction} (hGet : function.instructions[j]? = some c)
    (hText : c.text = some name) :
    textAt function j = name := by
  rw [textAt, hGet, bind_some, hText, getD_some]

theorem falseBranch_jumps {compare branch : Nat} {c : IRInstruction}
    (hGet : function.instructions[branch]? = some c) (hOp : c.op = .branchZero)
    (hText : c.text.isSome = true)
    (h : .reference opcode name = falseBranch function compare branch) : jumpsTo c (some name) := by
  obtain ⟨text, hText⟩ := isSome_iff_exists.mp hText
  injection h with _ hName
  rw [textAt_of_text hGet hText] at hName
  subst hName
  exact ⟨Or.inr (Or.inl hOp), rfl, hText⟩

theorem plainTail_reference {instruction : IRInstruction}
    (h : .reference opcode name ∈ plainTail emitter instruction) :
    jumpsTo instruction (some name) := by
  have hText : ∀ {text : String}, text = instruction.text.getD "" → ¬instruction.text.getD "" = "" →
      instruction.text = some text := by
    intro text hEq hNonempty
    cases hCase : instruction.text with
    | none =>
      rw [hCase] at hNonempty
      exact absurd rfl hNonempty
    | some own =>
      rw [hEq, hCase]
      rfl
  unfold plainTail at h
  dsimp only at h
  split at h
  all_goals first | (cases h; done) | skip
  · split at h <;> simp at h
  · rename_i hOp
    split at h
    · simp at h
    · rename_i hNonempty
      simp only [mem_singleton, EmitEvent.reference.injEq] at h
      exact ⟨Or.inl hOp, rfl, hText h.2 hNonempty⟩
  · rename_i hOp
    split at h
    · simp at h
    · rename_i hNonempty
      simp only [mem_singleton, EmitEvent.reference.injEq] at h
      exact ⟨Or.inr (Or.inl hOp), rfl, hText h.2 hNonempty⟩
  · rename_i hOp
    split at h
    · simp at h
    · rename_i hNonempty
      simp only [mem_singleton, EmitEvent.reference.injEq] at h
      exact ⟨Or.inr (Or.inr hOp), rfl, hText h.2 hNonempty⟩
  · simp at h

theorem unitTail_reference (hUnit : (k, emission) ∈ units emitter function)
    (h : .reference opcode name ∈ unitTail emitter function (k, emission)) :
    emission ≠ .chain 6 ∧ ∃ j c, k ≤ j ∧ j < k + emission.consumed ∧
      function.instructions[j]? = some c ∧ jumpsTo c (some name) := by
  have hEmits := emitAt_emits emitter.keepsWord function k
  rw [← (mem_emitFrom hUnit).1] at hEmits
  unfold unitTail at h
  dsimp only at h
  split at h
  · -- the comparison of an operation's result
    refine ⟨fun h => (by cases h), ?_⟩
    cases hEmits with
    | compareBranch hMatch =>
      unfold matchesCompareBranchChain at hMatch
      split at hMatch
      · rename_i producer compare branch hP hC hB
        simp only [Bool.and_eq_true, beq_iff_eq] at hMatch
        exact ⟨k + 2, branch, by omega, Nat.lt_succ_self _, hB,
          falseBranch_jumps hB hMatch.1.1.1.2 hMatch.1.1.2 (mem_singleton.mp h)⟩
      · cases hMatch
    | addressAdd hTry => cases tryEmit_isAccess (.inl hTry)
    | scaledAddress hTry => cases tryEmit_isAccess (.inr hTry)
  · refine ⟨fun h => (by cases h), ?_⟩
    split at h
    · cases h
    · rename_i hOther
      cases hEmits with
      | castChain hMatch => exact absurd (Or.inl hMatch) hOther
      | expressionChain hMatch => exact absurd (Or.inr hMatch) hOther
      | compareBranchZero hMatch =>
        unfold matchesCompareBranchZero at hMatch
        split at hMatch
        · rename_i compare branch hC hB
          simp only [Bool.and_eq_true, beq_iff_eq] at hMatch
          have hText : branch.text.isSome = true := by
            have hAny := hMatch.1.2
            cases hCase : branch.text with
            | none =>
              rw [hCase] at hAny
              cases hAny
            | some text => rfl
          exact ⟨k + 1, branch, by omega, Nat.lt_succ_self _, hB,
            falseBranch_jumps hB hMatch.1.1.2 hText (mem_singleton.mp h)⟩
        · cases hMatch
      | addressAdd hTry => cases tryEmit_isAccess (.inl hTry)
      | scaledAddress hTry => cases tryEmit_isAccess (.inr hTry)
  · refine ⟨fun h => (by cases h), ?_⟩
    split at h
    · rename_i instruction hGet
      exact ⟨k, instruction, Nat.le_refl _, Nat.lt_succ_self _, hGet, plainTail_reference h⟩
    · cases h
  · cases h

theorem isSingleUseBinary_op {c : IRInstruction} (h : isSingleUseBinary function c = true) :
    c.op = .binary := by
  simp only [isSingleUseBinary, Bool.and_eq_true, beq_iff_eq] at h
  exact h.1.1

/-- The two instructions of an arithmetic chain are no branches. -/
theorem arithmeticChain_ops {keepsWord : String → Bool}
    (h : matchesCastChain keepsWord function k = true ∨ matchesExpressionChain function k = true) :
    ∃ producer consumer, function.instructions[k]? = some producer ∧
      function.instructions[k + 1]? = some consumer ∧ producer.op = .binary ∧
      (consumer.op = .binary ∨ consumer.op = .cast) := by
  rcases h with h | h
  · unfold matchesCastChain at h
    split at h
    · rename_i producer cast hP hC
      simp only [Bool.and_eq_true, beq_iff_eq] at h
      exact ⟨producer, cast, hP, hC, isSingleUseBinary_op h.1.1.1.1.1, .inr h.1.1.1.2⟩
    · cases h
  · unfold matchesExpressionChain at h
    split at h
    · rename_i producer consumer hP hC
      simp only [Bool.and_eq_true, beq_iff_eq] at h
      exact ⟨producer, consumer, hP, hC, isSingleUseBinary_op h.1.1.1.1.1, .inl h.1.1.1.2⟩
    · cases h

theorem plainTail_jump {c : IRInstruction} (hJump : jumpsTo c (some name)) (hName : name ≠ "") :
    ∃ opcode, plainTail emitter c = [.reference opcode name] := by
  obtain ⟨hOp, -, hText⟩ := hJump
  unfold plainTail
  rw [hText, getD_some]
  rcases hOp with hOp | hOp | hOp <;> rw [hOp] <;> exact ⟨_, if_neg hName⟩

/-- **Each branch of the IR is emitted.** The unit of a branch ends in a reference to the label that
the branch names, unless it is a diamond. -/
theorem jump_referenced {c : IRInstruction} (hGet : function.instructions[j]? = some c)
    (hJump : jumpsTo c (some name)) (hName : name ≠ "") :
    ∃ k emission, (k, emission) ∈ units emitter function ∧ k ≤ j ∧ j < k + emission.consumed ∧
      (emission = .chain 6 ∨
        ∃ opcode, unitTail emitter function (k, emission) = [.reference opcode name]) := by
  obtain ⟨hLt, -⟩ := List.getElem?_eq_some_iff.mp hGet
  obtain ⟨k, hUnit, hLow, hHigh⟩ : ∃ k, (k, emitAt emitter.keepsWord function k) ∈
      units emitter function ∧ k ≤ j ∧ j < k + (emitAt emitter.keepsWord function k).consumed :=
    emitFrom_covers (Nat.le_refl _) (Nat.zero_le j) hLt
  have hEmits := emitAt_emits emitter.keepsWord function k
  generalize emitAt emitter.keepsWord function k = emission at hUnit hHigh hEmits
  refine ⟨k, emission, hUnit, hLow, hHigh, ?_⟩
  have hOther : ∀ {p : Nat} {d : IRInstruction}, function.instructions[p]? = some d →
      d.op = .binary ∨ d.op = .cast ∨ d.op = .load ∨ d.op = .store → p ≠ j := by
    rintro p d hd hOp rfl
    cases hd.symm.trans hGet
    rcases hJump.1 with h | h | h <;> simp [h] at hOp
  have hText : textAt function j = name := textAt_of_text hGet hJump.2.2
  have hArithmetic : matchesCastChain emitter.keepsWord function k = true ∨
      matchesExpressionChain function k = true → ¬ j < k + 2 := by
    intro hMatch
    obtain ⟨producer, consumer, hP, hC, hProducer, hConsumer⟩ := arithmeticChain_ops hMatch
    have hFirst := hOther hP (.inl hProducer)
    have hSecond := hOther hC (hConsumer.imp_right .inl)
    omega
  cases hEmits with
  | skip hFeeds =>
    obtain ⟨shift, _, _, hShift, -, -, hScale, -⟩ := shiftOnlyFeeds_spec hFeeds
    have hHere := hOther hShift (.inl (shiftScale_spec hScale).1)
    change j < k + 1 at hHigh
    omega
  | compareBranch hMatch =>
    unfold matchesCompareBranchChain at hMatch
    split at hMatch
    · rename_i producer compare branch hP hC hB
      simp only [Bool.and_eq_true] at hMatch
      have hFirst := hOther hP (.inl (isSingleUseBinary_op hMatch.1.1.1.1.1.1.1))
      have hSecond := hOther hC (.inl (isSingleUseBinary_op hMatch.1.1.1.1.1.2))
      change j < k + 3 at hHigh
      obtain rfl : j = k + 2 := by omega
      exact .inr ⟨_, congrArg (fun text => [EmitEvent.reference _ text]) hText⟩
    · cases hMatch
  | diamond hMatch => exact .inl rfl
  | addressAdd hTry =>
    obtain ⟨address, memory, hA, hM, hAdd, hConsumed, rfl⟩ := tryEmitAddressAdd_spec hTry
    obtain ⟨_, memory', _, -, hM', -, -, -, hUse⟩ := addressConsumed_spec hConsumed
    cases hM.symm.trans hM'
    have hFirst := hOther hA (.inl (isAddressAdd_spec hAdd).1)
    have hSecond := hOther hM (.inr (.inr (hUse.imp And.left And.left)))
    split at hHigh <;> (change j < k + 2 at hHigh; omega)
  | scaledAddress hTry =>
    obtain ⟨a, memory, hMatched, hM, hConsumed, rfl⟩ := tryEmitScaledAddress_spec hTry
    obtain ⟨shift, address, hS, hA, hAdd, -, -, hScale, -⟩ := tryMatchScaledAddress_spec hMatched
    obtain ⟨_, memory', _, -, hM', -, -, -, hUse⟩ := addressConsumed_spec hConsumed
    cases hM.symm.trans hM'
    have hFirst := hOther hS (.inl (shiftScale_spec hScale).1)
    have hSecond := hOther hA (.inl (isAddressAdd_spec hAdd).1)
    have hThird := hOther hM (.inr (.inr (hUse.imp And.left And.left)))
    split at hHigh <;> (change j < k + 3 at hHigh; omega)
  | castChain hMatch => exact absurd hHigh (hArithmetic (.inl hMatch))
  | expressionChain hMatch => exact absurd hHigh (hArithmetic (.inr hMatch))
  | compareBranchZero hMatch =>
    unfold matchesCompareBranchZero at hMatch
    split at hMatch
    · rename_i compare branch hC hB
      simp only [Bool.and_eq_true] at hMatch
      have hFirst := hOther hC (.inl (isSingleUseBinary_op hMatch.1.1.1.1))
      change j < k + 2 at hHigh
      have hOwn : ¬ (matchesCastChain emitter.keepsWord function k = true ∨
        matchesExpressionChain function k = true) := fun h => hArithmetic h hHigh
      obtain rfl : j = k + 1 := by omega
      rw [unitTail, if_neg hOwn]
      exact .inr ⟨_, congrArg (fun text => [EmitEvent.reference _ text]) hText⟩
    · cases hMatch
  | plain =>
    change j < k + 1 at hHigh
    obtain rfl : j = k := by omega
    rw [unitTail, hGet]
    exact .inr (plainTail_jump hJump hName)

theorem unitTail_label (h : .label name failure ∈ unitTail emitter function (k, emission)) :
    emission = .plain ∧ unitTail emitter function (k, emission) = [.label name failure] ∧
      ∃ c, function.instructions[k]? = some c ∧ c.op = .label ∧ c.text = some name := by
  unfold unitTail at h ⊢
  dsimp only at h ⊢
  split at h
  · simp [falseBranch] at h
  · split at h
    · cases h
    · simp [falseBranch] at h
  · refine ⟨rfl, ?_⟩
    split at h
    · rename_i instruction hGet
      unfold plainTail at h ⊢
      dsimp only at h ⊢
      split at h
      all_goals first | (cases h; done) | skip
      · rename_i hOp
        rw [hGet]
        split at h
        · simp at h
        · rename_i hNonempty
          rw [if_neg hNonempty]
          have hEvent := mem_singleton.mp h
          rw [hEvent]
          refine ⟨rfl, instruction, rfl, hOp, ?_⟩
          cases hCase : instruction.text with
          | none =>
            rw [hCase] at hNonempty
            exact absurd rfl hNonempty
          | some own =>
            rw [hCase] at hEvent
            injection hEvent with hName _
            rw [hName]
            rfl
      · split at h <;> simp at h
      · split at h <;> simp at h
      · split at h <;> simp at h
      · simp at h
    · cases h
  · cases h

theorem mem_functionEvents (h : e ∈ functionEvents emitter function) :
    e = .bytes emitter.prologue ∨ e.isLocal = true ∨
      ∃ unit ∈ units emitter function, e ∈ unitTail emitter function unit := by
  rcases mem_append.mp h with hCode | hEnd
  · rcases mem_cons.mp hCode with hPrologue | hUnits
    · exact Or.inl hPrologue
    · obtain ⟨unit, hUnit, hMem⟩ := mem_flatMap.mp hUnits
      rcases mem_append.mp hMem with hBody | hTail
      · exact Or.inr (Or.inl (emitter.body_local _ _ hBody))
      · exact Or.inr (Or.inr ⟨unit, hUnit, hTail⟩)
  · unfold endLabelEvents at hEnd
    split at hEnd
    · rename_i name hName
      rw [mem_singleton.mp hEnd]
      exact Or.inr (Or.inl (emitter.endLabel_generated _ hName))
    · cases hEnd

theorem functionEvents_split {before after : List (Nat × Emission)} {unit : Nat × Emission}
    (hUnits : units emitter function = before ++ unit :: after)
    (hTail : unitTail emitter function unit = [e]) :
    ∃ front back, functionEvents emitter function = front ++ e :: back ∧
      codeSize front = tailOffset emitter function before unit.1 := by
  refine ⟨.bytes emitter.prologue :: (before.flatMap (unitEvents emitter function) ++
    emitter.body unit.1), after.flatMap (unitEvents emitter function) ++ endLabelEvents emitter,
    ?_, ?_⟩
  · have hUnit : unitEvents emitter function unit = emitter.body unit.1 ++ [e] := by
      rw [unitEvents, hTail]
    rw [functionEvents, hUnits, flatMap_append, flatMap_cons, hUnit]
    simp
  · rw [codeSize_cons, codeSize_append, tailOffset, EmitEvent.code, Nat.add_assoc]

theorem label_is_instruction {front back : List EmitEvent} (hNew : isGenerated name = false) (hNodup
      : ∀ front' failure' back', functionEvents emitter function = front' ++ .label name failure' ::
      back' → front = front')
    (hSplit : functionEvents emitter function = front ++ .label name failure :: back) :
    ∃ before j label after, units emitter function = before ++ (j, .plain) :: after ∧
      function.instructions[j]? = some label ∧ label.op = .label ∧ label.text = some name ∧
      codeSize front = tailOffset emitter function before j := by
  have hMem : .label name failure ∈ functionEvents emitter function := by
    rw [hSplit]
    exact mem_append_right _ mem_cons_self
  rcases mem_functionEvents hMem with hBytes | hLocal | ⟨⟨j, emission⟩, hUnit, hTail⟩
  · cases hBytes
  · rw [EmitEvent.isLocal, hNew] at hLocal
    cases hLocal
  · obtain ⟨rfl, hOnly, label, hGet, hOp, hText⟩ := unitTail_label hTail
    obtain ⟨before, after, hUnits⟩ := append_of_mem hUnit
    obtain ⟨front', back', hSplit', hSize⟩ := functionEvents_split hUnits hOnly
    rw [hNodup _ _ _ hSplit']
    exact ⟨before, j, label, after, hUnits, hGet, hOp, hText, hSize⟩

theorem units_apart {k' : Nat} {emission' : Emission} (h : (k, emission) ∈ units emitter function)
    (h' : (k', emission') ∈ units emitter function) (hLow : k ≤ j)
    (hHigh : j < k + emission.consumed) (hLow' : k' ≤ j) (hHigh' : j < k' + emission'.consumed)
    : (k, emission) = (k', emission') := by
  rcases Nat.lt_trichotomy k k' with hLt | rfl | hGt
  · have := emitFrom_disjoint h h' hLt
    omega
  · rw [(mem_emitFrom h).1, (mem_emitFrom h').1]
  · have := emitFrom_disjoint h' h hGt
    omega

structure BranchesLand (emitter : FunctionEmitter) (function : IRFunction) (code : List UInt8) :
    Prop where
  fixups : FixupsLand (functionEvents emitter function) emitter.epilogue code
  /-- A branch of the IR is the branch of its unit, unless a fused diamond takes it in. -/
  referenced : ∀ j c name, function.instructions[j]? = some c → jumpsTo c (some name) → name ≠ "" →
    ∃ k emission, (k, emission) ∈ units emitter function ∧ k ≤ j ∧ j < k + emission.consumed ∧
      (emission = .chain 6 ∨
        ∃ opcode, unitTail emitter function (k, emission) = [.reference opcode name])
  /-- The branch of a unit goes to a label instruction that is emitted. -/
  branches : ∀ before i emission after opcode name,
    units emitter function = before ++ (i, emission) :: after →
      unitTail emitter function (i, emission) = [.reference opcode name] →
      ∃ before' j label after', units emitter function = before' ++ (j, .plain) :: after' ∧
        function.instructions[j]? = some label ∧ label.op = .label ∧ label.text = some name ∧
        branchTarget code (tailOffset emitter function before i + opcode.length) =
          tailOffset emitter function before' j
  /-- The labels of a fused diamond are not referred to any more. -/
  consumed : ∀ i j label name, (i, .chain 6) ∈ units emitter function → j = i + 4 ∨ j = i + 5 →
    function.instructions[j]? = some label → label.text = some name →
      ∀ opcode, .reference opcode name ∉ functionEvents emitter function

def FixupFails (events : List EmitEvent) : Prop :=
  (∃ opcode name, .reference opcode name ∈ events ∧ ∀ failure, .label name failure ∉ events) ∨
    (∃ name front failure back front' failure' back',
      events = front ++ .label name failure :: back ∧
        events = front' ++ .label name failure' :: back' ∧ front ≠ front') ∨
    (∃ before opcode name after front failure back,
      events = before ++ .reference opcode name :: after ∧
        events = front ++ .label name failure :: back ∧
        ¬InRange (codeSize before + opcode.length) (codeSize front)) ∨
    ∃ before after, events = before ++ .returnJump :: after ∧
      ¬InRange (codeSize before + 1) (codeSize events)

theorem fixupsLand_of_emitted {code : List UInt8}
    (h : emitBinaryFunctionCode emitter function = .ok code) :
    FixupsLand (functionEvents emitter function) emitter.epilogue code := by
  unfold emitBinaryFunctionCode at h
  cases hEmit : emitEvents {} (functionEvents emitter function) with
  | error message =>
    rw [hEmit] at h
    cases h
  | ok s =>
    rw [hEmit] at h
    exact fixupsLand_of_ok hEmit h

theorem FixupsLand.not_fails {epilogue code : List UInt8}
    (h : FixupsLand events epilogue code) : ¬FixupFails events := by
  rintro (⟨opcode, name, hMem, hMissing⟩ | ⟨_, _, _, _, _, _, _, hFirst, hSecond, hNe⟩ |
    ⟨_, _, _, _, _, _, _, hReference, hLabel, hRange⟩ | ⟨_, _, hReturn, hRange⟩)
  · obtain ⟨before, after, hSplit⟩ := append_of_mem hMem
    obtain ⟨front, failure, back, hFront, -⟩ := h.references _ _ _ _ hSplit
    refine hMissing failure ?_
    rw [hFront]
    exact mem_append_right _ mem_cons_self
  · exact hNe (h.labels_once _ _ _ _ _ _ _ hFirst hSecond)
  · exact hRange (h.in_range _ _ _ _ _ _ _ hReference hLabel)
  · exact hRange (h.return_in_range _ _ hReturn)

theorem not_mem_of_consumed {i : Nat} {label : IRInstruction} (hNames : JumpsToIrLabels function)
    (hUnit : (i, .chain 6) ∈ units emitter function) (hj : j = i + 4 ∨ j = i + 5)
    (hLabel : function.instructions[j]? = some label) (hText : label.text = some name)
    (opcode : List UInt8) :
    .reference opcode name ∉ functionEvents emitter function := by
  intro hMem
  have hEmits := emitAt_emits emitter.keepsWord function i
  rw [← (mem_emitFrom hUnit).1] at hEmits
  have hMatch : matchesCompareAssignDiamond function i = true := by
    cases hEmits with
    | diamond hMatch => exact hMatch
    | addressAdd hTry => cases tryEmit_isAccess (.inl hTry)
    | scaledAddress hTry => cases tryEmit_isAccess (.inr hTry)
  obtain ⟨d⟩ := diamond_of_matches hMatch
  -- the one branch to the label, and it is inside the diamond
  have hOwn : ∃ k c, i ≤ k ∧ k < i + 6 ∧ function.instructions[k]? = some c ∧
      jumpsTo c (some name) ∧ ∀ m e, function.instructions[m]? = some e →
        jumpsTo e (some name) → m = k := by
    rcases hj with rfl | rfl
    · cases d.falseLabel_at.symm.trans hLabel
      have hJump := d.branch_jumps
      have hOnce := d.falseLabel_once
      rw [hText] at hJump hOnce
      exact ⟨i + 1, d.branch, by omega, by omega, d.branch_at, hJump,
        fun m e hGet hOther => eq_of_referenced_once hOnce hGet d.branch_at hOther hJump⟩
    · cases d.endLabel_at.symm.trans hLabel
      have hJump := d.jump_jumps
      have hOnce := d.endLabel_once
      rw [hText] at hJump hOnce
      exact ⟨i + 3, d.jump, by omega, by omega, d.jump_at, hJump,
        fun m e hGet hOther => eq_of_referenced_once hOnce hGet d.jump_at hOther hJump⟩
  obtain ⟨k, c, hLow, hHigh, hGet, hJump, hOnly⟩ := hOwn
  rcases mem_functionEvents hMem with hBytes | hLocal | ⟨⟨m, emission⟩, hOther, hTail⟩
  · cases hBytes
  · rw [EmitEvent.isLocal, hNames c (mem_of_getElem? hGet) name hJump] at hLocal
    cases hLocal
  · obtain ⟨hNe, n, e, hn, hn', hAt, hRefers⟩ := unitTail_reference hOther hTail
    cases hOnly n e hAt hRefers
    cases units_apart hOther hUnit hn hn' hLow hHigh
    exact hNe rfl

/-- **Branches land on their labels.** After a successful emission every reference goes to the
offset of its label, every return to the epilogue and nothing else has changed; a fixup that
cannot be resolved is an error. -/
theorem branches_land (emitter : FunctionEmitter) (function : IRFunction)
    (hNames : JumpsToIrLabels function) :
    (∀ code, emitBinaryFunctionCode emitter function = .ok code →
      BranchesLand emitter function code) ∧
    (FixupFails (functionEvents emitter function) →
      ∃ message, emitBinaryFunctionCode emitter function = .error message) := by
  refine ⟨?_, ?_⟩
  · intro code h
    have hLand := fixupsLand_of_emitted h
    refine ⟨hLand, fun _ _ _ => jump_referenced, ?_, ?_⟩
    · intro before i emission after opcode name hUnits hTail
      obtain ⟨front, back, hSplit, hSize⟩ := functionEvents_split hUnits hTail
      obtain ⟨place, failure, rest, hLabel, hTarget⟩ := hLand.references _ _ _ _ hSplit
      have hUnit : (i, emission) ∈ units emitter function := by
        rw [hUnits]
        exact mem_append_right _ mem_cons_self
      have hMem : .reference opcode name ∈ unitTail emitter function (i, emission) := by
        rw [hTail]
        exact mem_singleton_self _
      obtain ⟨-, j, c, -, -, hGet, hJump⟩ := unitTail_reference hUnit hMem
      obtain ⟨before', j, label, after', hOther, hAt, hOp, hText, hPlace⟩ :=
        label_is_instruction (hNames c (mem_of_getElem? hGet) name hJump)
          (fun _ _ _ hAgain => hLand.labels_once _ _ _ _ _ _ _ hLabel hAgain) hLabel
      rw [hSize, hPlace] at hTarget
      exact ⟨before', j, label, after', hOther, hAt, hOp, hText, hTarget⟩
    · intro i j label name hUnit hj hLabel hText opcode
      exact not_mem_of_consumed hNames hUnit hj hLabel hText opcode
  · intro hFails
    cases h : emitBinaryFunctionCode emitter function with
    | error message => exact ⟨message, rfl⟩
    | ok code => exact absurd hFails (fixupsLand_of_emitted h).not_fails

end Branches

/-- A loop around a conditional assignment: `while (z) { if (x < y) { x = y } } return`. -/
def loopFunction : IRFunction where
  name := "f"
  parameterNames := ["x", "y", "z"]
  instructions :=
    [{ op := .label, text := some "ir_while_0" },
     { op := .branchZero, lhs := .symbol "z", text := some "ir_while_end_1" },
     { op := .binary, dest := .temp "t0", lhs := .symbol "x", rhs := .symbol "y", text := some "<" },
     { op := .branchZero, lhs := .temp "t0", text := some "ir_if_next_3" },
     { op := .assign, dest := .symbol "x", lhs := .symbol "y" },
     { op := .jump, text := some "ir_if_end_2" },
     { op := .label, text := some "ir_if_next_3" },
     { op := .label, text := some "ir_if_end_2" },
     { op := .jump, text := some "ir_while_0" },
     { op := .label, text := some "ir_while_end_1" },
     { op := .return_ }]

def loopEmitter : FunctionEmitter where
  functionName := "f"
  keepsWord _ := true
  prologue := [0x55]
  body i := if i = 1 then [.bytes [0x48, 0x85, 0xC0]] else if i = 2 then [.bytes [0x90]] else []
  runtimeEndLabel := some "Lmettledbg_func_end0"
  epilogue := [0x5D, 0xC3]
  body_local i e hMem := by
    split at hMem
    · rw [List.mem_singleton.mp hMem]
      rfl
    · split at hMem
      · rw [List.mem_singleton.mp hMem]
        rfl
      · cases hMem
  endLabel_generated name hName := by
    cases hName
    decide

theorem loopFunction_jumps : JumpsToIrLabels loopFunction := by
  have hAll : ∀ c ∈ loopFunction.instructions, c.text.all (fun name => !isGenerated name) = true := by
    decide
  intro c hMem name hJump
  have hOwn := hAll c hMem
  rw [hJump.2.2] at hOwn
  simpa using hOwn

def loopCode : List UInt8 :=
  [0x55, 0x48, 0x85, 0xC0, 0x0F, 0x84, 0x06, 0, 0, 0, 0x90, 0xE9, 0xF1, 0xFF, 0xFF, 0xFF,
    0xE9, 0, 0, 0, 0, 0x5D, 0xC3]

theorem loopFunction_emits : emitBinaryFunctionCode loopEmitter loopFunction = .ok loopCode := by
  decide

theorem branches_land_loop : JumpsToIrLabels loopFunction ∧
      emitBinaryFunctionCode loopEmitter loopFunction = .ok loopCode ∧
      (2, .chain 6) ∈ units loopEmitter loopFunction ∧
      BranchesLand loopEmitter loopFunction loopCode :=
  ⟨loopFunction_jumps, loopFunction_emits, by decide,
    (branches_land loopEmitter loopFunction loopFunction_jumps).1 _ loopFunction_emits⟩

end Mettle.Codegen
