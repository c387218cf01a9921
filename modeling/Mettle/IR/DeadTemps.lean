import Mettle.IR.FlowCleanup

/-!
# Mettle — dead temp writes

The pass of `ir/ir_optimize.c` that drops computations whose temp nobody reads. One sweep from
the end of the function to its start collects the temps that are read below; a pure instruction
whose temp is not among them becomes a nop. What is *below in the text* is not what is executed
later: a temp that a loop carries back to its head is read above its write.

The pass is compared with `ReadIn`, a description of the sweep that does not run it. A run on
which every value that is read around a back edge is also read below its write, and on which no
dropped computation traps, is not changed: the two functions go in step, through the same places,
with the same symbols, memory and calls, to the same result.
-/

namespace Mettle.IR

open List Option

-- ---
-- The pass
-- ---

/-- Has no effect besides its result. -/
def irInstructionIsTriviallyDeadIfDestUnused (instruction : IRInstruction) : Bool :=
  match instruction.op with
  | .assign | .addressOf | .binary | .unary | .cast => true
  | _ => false

def IROperand.temp? : IROperand → Option String
  | .temp name => some name
  | _ => Option.none

/-- The operands that `ir_collect_instruction_temp_uses` looks at. -/
def irCollectedOperands (instruction : IRInstruction) : List IROperand :=
  match instruction.op with
  | .store | .memcpyInline | .countWordStarts | .simdSumI32 | .simdMatmulN32
  | .simdInsertionSortI32 | .simdDotI32 | .simdScaleI32 | .simdClampI32 | .simdReverseCopyI32
  | .lowerBoundI32 | .prefixSumI32 | .simdMinmaxI32 =>
    instruction.dest :: instruction.lhs :: instruction.rhs :: instruction.arguments
  | .assign | .addressOf | .load | .binary | .unary | .cast | .new | .branchZero | .branchEq
  | .call | .callIndirect | .return_ =>
    instruction.lhs :: instruction.rhs :: instruction.arguments
  | _ => []

/-- The temps that an instruction reads. -/
def irCollectInstructionTempUses (instruction : IRInstruction) : List String :=
  (irCollectedOperands instruction).filterMap IROperand.temp?

def tempWritten (instruction : IRInstruction) : Option String :=
  if irInstructionWritesTemp instruction then instruction.dest.temp? else Option.none

/-- What the sweep knows: the temps with a use count, and whether it has passed a label. -/
structure TempSweep where
  live : List String
  crossedLabel : Bool
  deriving DecidableEq

def sweepTempWrite (instruction : IRInstruction) (below : TempSweep) : IRInstruction × TempSweep :=
  let crossedLabel := below.crossedLabel || instruction.op == .label
  match tempWritten instruction with
  | some name =>
    if !below.live.contains name && irInstructionIsTriviallyDeadIfDestUnused instruction then
      (makeNop instruction, { live := below.live, crossedLabel })
    else
      -- below the last label nothing jumps over the write
      let live := if crossedLabel then below.live else below.live.filter (· != name)
      (instruction, { live := irCollectInstructionTempUses instruction ++ live, crossedLabel })
  | Option.none =>
    (instruction, { live := irCollectInstructionTempUses instruction ++ below.live, crossedLabel })

def sweepTempWrites : List IRInstruction → List IRInstruction × TempSweep
  | [] => ([], { live := [], crossedLabel := false })
  | instruction :: rest =>
    let below := sweepTempWrites rest
    let here := sweepTempWrite instruction below.2
    (here.1 :: below.1, here.2)

/-- Empties the writes to temps that nothing reads. -/
def irEliminateDeadTempWritesPass (function : IRFunction) : IRFunction :=
  { function with instructions := (sweepTempWrites function.instructions).1 }

-- ---
-- What the sweep holds for live
-- ---

def Hides (instruction : IRInstruction) (rest : List IRInstruction) (t : String) : Prop :=
  tempWritten instruction = some t ∧ ∀ c ∈ rest, c.op ≠ .label

def droppable (instruction : IRInstruction) : Option String :=
  if irInstructionIsTriviallyDeadIfDestUnused instruction then tempWritten instruction
  else Option.none

/-- The temp is read in the text, before another write hides it. -/
def ReadIn : List IRInstruction → String → Prop
  | [], _ => False
  | instruction :: rest, t =>
    (t ∈ irCollectInstructionTempUses instruction ∧
      ∀ u, droppable instruction = some u → ReadIn rest u) ∨
    (ReadIn rest t ∧ ¬ Hides instruction rest t)

def Idle (instructions : List IRInstruction) (p : Nat) : Prop :=
  ∃ c t, instructions[p]? = some c ∧ droppable c = some t ∧ ¬ ReadIn (instructions.drop (p + 1)) t

variable {c : IRInstruction} {t : String}

theorem droppable_spec (h : droppable c = some t) :
    irInstructionIsTriviallyDeadIfDestUnused c = true ∧ tempWritten c = some t := by
  unfold droppable at h
  split at h
  · rename_i hTrivial
    exact ⟨hTrivial, h⟩
  · cases h

theorem tempWritten_spec (h : tempWritten c = some t) : c.dest = .temp t ∧ .temp t ∈ c.writes := by
  unfold tempWritten at h
  split at h
  · rename_i hWrites
    have hDest : c.dest = .temp t := by
      cases hd : c.dest with
      | temp name =>
        rw [hd, IROperand.temp?] at h
        rw [some.inj h]
      | _ =>
        rw [hd] at h
        cases h
    refine ⟨hDest, ?_⟩
    unfold irInstructionWritesTemp at hWrites
    unfold IRInstruction.writes
    cases hOp : c.op <;> rw [hOp] at hWrites <;>
      simp [IROpcode.writesDestination, hDest] at hWrites ⊢
  · cases h

theorem droppable_op (h : droppable c = some t) :
    c.op = .assign ∨ c.op = .addressOf ∨ c.op = .binary ∨ c.op = .unary ∨ c.op = .cast := by
  have hTrivial := (droppable_spec h).1
  unfold irInstructionIsTriviallyDeadIfDestUnused at hTrivial
  cases hOp : c.op <;> rw [hOp] at hTrivial <;>
    first | exact absurd hTrivial (by decide) | simp

theorem sweep_crossedLabel (code : List IRInstruction) :
    (sweepTempWrites code).2.crossedLabel = true ↔ ∃ c ∈ code, c.op = .label := by
  induction code with
  | nil => simp [sweepTempWrites]
  | cons c rest ih =>
    have hHere : (sweepTempWrites (c :: rest)).2.crossedLabel =
        ((sweepTempWrites rest).2.crossedLabel || c.op == .label) := by
      rw [sweepTempWrites]
      unfold sweepTempWrite
      split
      · split <;> rfl
      · rfl
    rw [hHere, Bool.or_eq_true, ih, beq_iff_eq, exists_mem_cons_iff, or_comm]

/-- **What the sweep holds for live.** -/
theorem sweepTempWrites_live (code : List IRInstruction) (t : String) :
    t ∈ (sweepTempWrites code).2.live ↔ ReadIn code t := by
  induction code generalizing t with
  | nil => simp [sweepTempWrites, ReadIn]
  | cons c rest ih =>
    rw [sweepTempWrites, ReadIn]
    have hDroppable : ∀ u, droppable c = some u → tempWritten c = some u :=
      fun u hu => (droppable_spec hu).2
    unfold sweepTempWrite
    cases hWritten : tempWritten c with
    | none =>
      have hNone : ∀ u, droppable c ≠ some u := by
        intro u hu
        rw [hDroppable u hu] at hWritten
        cases hWritten
      simp [Hides, hWritten, hNone, ih]
    | some name =>
      dsimp only
      have hCrossed : ((sweepTempWrites rest).2.crossedLabel || c.op == .label) = true ↔
          ∃ d ∈ rest, d.op = .label := by
        have hLabel : (c.op == .label) = false := by
          rw [beq_eq_false_iff_ne]
          intro hOp
          have hMem := (tempWritten_spec hWritten).2
          rw [IRInstruction.writes, hOp] at hMem
          simp [IROpcode.writesDestination] at hMem
        rw [hLabel, Bool.or_false]
        exact sweep_crossedLabel rest
      split
      · -- the computation is dropped
        rename_i hDrop
        rw [Bool.and_eq_true, Bool.not_eq_true', contains_eq_mem, decide_eq_false_iff_not,
          ih] at hDrop
        have hIs : droppable c = some name := by rw [droppable, if_pos hDrop.2, hWritten]
        rw [ih]
        constructor
        · intro hRead
          refine Or.inr ⟨hRead, ?_⟩
          rintro ⟨hSame, -⟩
          rw [hWritten] at hSame
          cases hSame
          exact hDrop.1 hRead
        · rintro (⟨-, hAll⟩ | ⟨hRead, -⟩)
          · exact absurd (hAll name hIs) hDrop.1
          · exact hRead
      · rename_i hKeep
        have hReader : ∀ u, droppable c = some u → ReadIn rest u := by
          intro u hu
          obtain ⟨hTrivial, hSame⟩ := droppable_spec hu
          rw [hWritten] at hSame
          cases hSame
          by_contra hNot
          refine hKeep ?_
          rw [Bool.and_eq_true, Bool.not_eq_true', contains_eq_mem, decide_eq_false_iff_not, ih]
          exact ⟨hNot, hTrivial⟩
        have hHides : Hides c rest t ↔ t = name ∧
            ¬ ((sweepTempWrites rest).2.crossedLabel || c.op == .label) = true := by
          rw [Hides, hWritten, some.injEq, hCrossed]
          push Not
          rw [eq_comm]
        rw [mem_append, hHides]
        refine or_congr ⟨fun h => ⟨h, hReader⟩, fun h => h.1⟩ ?_
        split
        · rename_i hYes
          rw [ih]
          exact ⟨fun h => ⟨h, fun hBoth => hBoth.2 hYes⟩, fun h => h.1⟩
        · rename_i hNo
          rw [mem_filter, ih, bne_iff_ne]
          exact and_congr_right fun _ => ⟨fun h hBoth => h hBoth.1, fun h hEq => h ⟨hEq, hNo⟩⟩

theorem sweepTempWrites_getElem? (code : List IRInstruction) (p : Nat) : (Idle code p →
      ∃ c, (sweepTempWrites code).1[p]? = some (makeNop c)) ∧
    (¬ Idle code p → (sweepTempWrites code).1[p]? = code[p]?) := by
  induction code generalizing p with
  | nil =>
    refine ⟨?_, fun _ => rfl⟩
    rintro ⟨c, t, hc, -⟩
    cases hc
  | cons c rest ih =>
    cases p with
    | succ p =>
      exact ih p
    | zero =>
      have hHere : Idle (c :: rest) 0 ↔ ∃ t, droppable c = some t ∧ ¬ ReadIn rest t := by
        constructor
        · rintro ⟨c', t, hc', hIs, hNot⟩
          cases hc'
          exact ⟨t, hIs, hNot⟩
        · rintro ⟨t, hIs, hNot⟩
          exact ⟨c, t, rfl, hIs, hNot⟩
      rw [hHere, sweepTempWrites]
      simp only [getElem?_cons_zero]
      unfold sweepTempWrite
      constructor
      · rintro ⟨t, hIs, hNot⟩
        obtain ⟨hTrivial, hWritten⟩ := droppable_spec hIs
        rw [hWritten]
        dsimp only
        rw [if_pos]
        · exact ⟨c, rfl⟩
        · rw [Bool.and_eq_true, Bool.not_eq_true', contains_eq_mem, decide_eq_false_iff_not,
            sweepTempWrites_live]
          exact ⟨hNot, hTrivial⟩
      · intro hNot
        cases hWritten : tempWritten c with
        | none => rfl
        | some name =>
          dsimp only
          rw [if_neg]
          intro hDrop
          rw [Bool.and_eq_true, Bool.not_eq_true', contains_eq_mem, decide_eq_false_iff_not,
            sweepTempWrites_live] at hDrop
          exact hNot ⟨name, by rw [droppable, if_pos hDrop.2, hWritten], hDrop.1⟩

-- ---
-- Reads below the write
-- ---

variable {V M : Type} {machine : Machine V M} {code : List IRInstruction}

theorem tempWritten_at {w : Nat} (hc : code[w]? = some c) (h : tempWritten c = some t) :
    writesTempAt code t w = true :=
  (writesTempAt_iff hc t).mpr (tempWritten_spec h).2

variable {start : IRState V M}

/-- No label stands at `w` or below, so the way cannot get past it without executing it. -/
theorem reaches_le {state : IRState V M} {later earlier : List Nat} {p w : Nat}
    (h : machine.Reaches code start (later ++ p :: earlier) state) (hLt : p < w)
    (hLabels : ∀ k c, code[k]? = some c → w ≤ k → c.op ≠ .label) (hAvoids : w ∉ later) :
    state.pc ≤ w := by
  have hStep : ∀ {s s' : IRState V M}, machine.step code s = .running s' → s.pc < w →
      s'.pc ≤ w := by
    intro s s' hRun hBefore
    obtain ⟨c, -, hExec⟩ := step_running hRun
    rcases execute_pc hExec with hNext | ⟨-, name, -, hIndex⟩
    · omega
    · obtain ⟨l, hl, hOp⟩ := getElem?_labelIndex hIndex
      by_contra hAfter
      exact hLabels _ l hl (by omega) hOp
  induction later generalizing state with
  | nil =>
    cases h with
    | step _ hRun => exact hStep hRun hLt
  | cons q later ih =>
    cases h with
    | step hReach hRun =>
      rw [mem_cons, not_or] at hAvoids
      have hBefore := ih hReach hAvoids.2
      exact hStep hRun (by omega)

theorem readIn_of_below {q : Nat} (hc : code[q]? = some c)
    (hRead : t ∈ irCollectInstructionTempUses c) (hKept : ¬ Idle code q) (n : Nat) :
    ∀ p, q = p + 1 + n → (∀ w d, p < w → w < q → code[w]? = some d →
        ¬ Hides d (code.drop (w + 1)) t) →
      ReadIn (code.drop (p + 1)) t := by
  induction n with
  | zero =>
    intro p hq _
    have hLt : q < code.length := (List.getElem_of_getElem? hc).1
    rw [show p + 1 = q by omega, List.drop_eq_getElem_cons hLt, ReadIn,
      (List.getElem_of_getElem? hc).2]
    refine Or.inl ⟨hRead, ?_⟩
    intro u hu
    by_contra hNot
    exact hKept ⟨c, u, hc, hu, hNot⟩
  | succ n ih =>
    intro p hq hNone
    have hLt : q < code.length := (List.getElem_of_getElem? hc).1
    have hNextLt : p + 1 < code.length := by omega
    rw [List.drop_eq_getElem_cons hNextLt, ReadIn]
    refine Or.inr ⟨ih (p + 1) (by omega) ?_, ?_⟩
    · intro w d hw hwq hd
      exact hNone w d (by omega) hwq hd
    · exact hNone (p + 1) _ (by omega) (by omega) (List.getElem?_eq_getElem hNextLt)

/-- **A value that is read below its last write is seen by the sweep.** -/
theorem readIn_of_executed {state : IRState V M} {path : List Nat} {p : Nat}
    (hReach : machine.Reaches code start path state) (hc : code[state.pc]? = some c)
    (hRead : t ∈ irCollectInstructionTempUses c) (hKept : ¬ Idle code state.pc)
    (hLast : lastWrite code path t = some p) (hBelow : p < state.pc) :
    ReadIn (code.drop (p + 1)) t := by
  obtain ⟨later, earlier, rfl, hLater⟩ := lastWrite_split hLast
  refine readIn_of_below hc hRead hKept (state.pc - (p + 1)) p (by omega) ?_
  rintro w d hpw hwq hd ⟨hWritten, hLabels⟩
  -- the write between them would have been executed
  have hLe : state.pc ≤ w := by
    refine reaches_le hReach hpw ?_ ?_
    · intro k l hl hk
      rcases Nat.eq_or_lt_of_le hk with rfl | hLt
      · intro hOp
        rw [hl] at hd
        cases hd
        have hMem := (tempWritten_spec hWritten).2
        rw [IRInstruction.writes, hOp] at hMem
        simp [IROpcode.writesDestination] at hMem
      · refine hLabels l (mem_iff_getElem?.mpr ⟨k - (w + 1), ?_⟩)
        rw [getElem?_drop, show w + 1 + (k - (w + 1)) = k by omega, hl]
    · intro hMem
      have := hLater w hMem
      rw [tempWritten_at hd hWritten] at this
      cases this
  omega

theorem collected_of_reads (hOp : c.op ≠ .rotateAdd) (h : .temp t ∈ c.reads) :
    t ∈ irCollectInstructionTempUses c := by
  refine mem_filterMap.mpr ⟨.temp t, ?_, rfl⟩
  unfold IRInstruction.reads at h
  unfold irCollectedOperands
  cases hCase : c.op <;> rw [hCase] at h hOp <;>
    simp only [mem_cons, not_mem_nil, or_false] at h ⊢ <;> tauto

-- ---
-- Runs go in step
-- ---

/-- The condition at one step of a run. -/
structure DropSafe (machine : Machine V M) (instructions : List IRInstruction) (path : List Nat)
    (state : IRState V M) : Prop where
  carried : ∀ c, instructions[state.pc]? = some c → ¬ Idle instructions state.pc →
    ∀ t p, .temp t ∈ c.reads → lastWrite instructions path t = some p →
      state.pc ≤ p ∨ c.op = .rotateAdd → ReadIn (instructions.drop (p + 1)) t
  total : ∀ c, instructions[state.pc]? = some c → Idle instructions state.pc →
    (machine.compute state c).isSome = true

def DroppedAfter (instructions : List IRInstruction) (path : List Nat) (t : String) : Prop :=
  ∃ p, lastWrite instructions path t = some p ∧ Idle instructions p

theorem pure_writes (h : droppable c = some t) : c.writes = [.temp t] := by
  have hDest := (tempWritten_spec (droppable_spec h).2).1
  unfold IRInstruction.writes
  rcases droppable_op h with hOp | hOp | hOp | hOp | hOp <;> rw [hOp, hDest] <;> rfl

theorem Idle.not_readIn {p : Nat} (h : Idle code p) (hWrites : writesTempAt code t p = true) :
    ¬ ReadIn (code.drop (p + 1)) t := by
  obtain ⟨c, u, hc, hIs, hNot⟩ := h
  rw [writesTempAt_iff hc, pure_writes hIs, mem_singleton, IROperand.temp.injEq] at hWrites
  rw [hWrites]
  exact hNot

theorem sweep_labelIndex (code : List IRInstruction) (name : String) :
    labelIndex (sweepTempWrites code).1 name = labelIndex code name := by
  refine labelIndex_congr ?_ name
  intro name p
  obtain ⟨hDropped, hSame⟩ := sweepTempWrites_getElem? code p
  by_cases hIdle : Idle code p
  · obtain ⟨d, hd⟩ := hDropped hIdle
    obtain ⟨c, t, hc, hIs, -⟩ := hIdle
    rw [hd, hc]
    simp only [map_some, makeNop]
    rcases droppable_op hIs with hOp | hOp | hOp | hOp | hOp <;> rw [hOp] <;> rfl
  · rw [hSame hIdle]

theorem dropped_step {e s : IRState V M} {path : List Nat}
    (hReach : machine.Reaches code start path s)
    (hSafe : DropSafe machine code path s)
    (hAgree : AgreeOff (DroppedAfter code path) e s) :
    Outcome.AgreeOff (DroppedAfter code (s.pc :: path))
      (machine.step (sweepTempWrites code).1 e) (machine.step code s) := by
  obtain ⟨hDropped, hSame⟩ := sweepTempWrites_getElem? code s.pc
  -- a temp that this step does not write stays what it was
  have hStays : ∀ t, ¬ DroppedAfter code (s.pc :: path) t →
      writesTempAt code t s.pc = false → ¬ DroppedAfter code path t := by
    rintro t hNot hWrites ⟨p, hLast, hIdle⟩
    refine hNot ⟨p, ?_, hIdle⟩
    rw [lastWrite_cons, hWrites]
    exact hLast
  by_cases hIdle : Idle code s.pc
  · obtain ⟨d, hd⟩ := hDropped hIdle
    obtain ⟨c, t, hc, hIs, hNot⟩ := hIdle
    obtain ⟨v, hCompute⟩ :=
      isSome_iff_exists.mp (hSafe.total c hc ⟨c, t, hc, hIs, hNot⟩)
    have hDest := (tempWritten_spec (droppable_spec hIs).2).1
    have hOld : machine.step code s = .running (machine.write s (.temp t) v).next := by
      rw [step_at hc, Machine.execute]
      rcases droppable_op hIs with hOp | hOp | hOp | hOp | hOp <;> rw [hOp] <;> dsimp only <;>
        rw [hCompute, hDest] <;> rfl
    have hNew : machine.step (sweepTempWrites code).1 e = .running e.next := by
      rw [Machine.step, hAgree.pc, hd]
      rfl
    rw [hOld, hNew]
    refine .running ⟨congrArg (· + 1) hAgree.pc, hAgree.locals, hAgree.memory, hAgree.trace, ?_⟩
    intro t' hLive
    by_cases hEq : t' = t
    · refine absurd ⟨s.pc, ?_, c, t, hc, hIs, hNot⟩ hLive
      rw [lastWrite_cons, hEq, tempWritten_at hc (droppable_spec hIs).2, if_pos rfl]
    · have hWrites : writesTempAt code t' s.pc = false := by
        rw [Bool.eq_false_iff]
        intro hTrue
        rw [writesTempAt_iff hc, pure_writes hIs, mem_singleton, IROperand.temp.injEq] at hTrue
        exact hEq hTrue
      rw [show e.next.temps t' = e.temps t' from rfl, hAgree.temps t' (hStays t' hLive hWrites)]
      exact (Function.update_of_ne hEq _ _).symm
  · have hAt : (sweepTempWrites code).1[e.pc]? = code[s.pc]? := by
      rw [hAgree.pc, hSame hIdle]
    cases hc : code[s.pc]? with
    | none =>
      rw [Machine.step, hAt, Machine.step, hc]
      refine .returned ⟨hAgree.pc, hAgree.locals, hAgree.memory, hAgree.trace, ?_⟩
      intro t hLive
      refine hAgree.temps t (hStays t hLive ?_)
      rw [writesTempAt, hc]
      rfl
    | some c =>
      -- what a kept instruction reads was not dropped
      have hLive : ∀ operand ∈ c.reads, ∀ t, operand = .temp t → ¬ DroppedAfter code path t := by
        rintro operand hMem t rfl ⟨p, hLast, hIs⟩
        refine hIs.not_readIn (lastWrite_writes hLast) ?_
        by_cases hAbove : s.pc ≤ p ∨ c.op = .rotateAdd
        · exact hSafe.carried c hc hIdle t p hMem hLast hAbove
        · rw [not_or, Nat.not_le] at hAbove
          exact readIn_of_executed hReach hc (collected_of_reads hAbove.2 hMem) hIdle hLast hAbove.1
      have hNew : machine.step (sweepTempWrites code).1 e =
          machine.execute code e c := by
        rw [step_at (hAt.trans hc), execute_congr machine (sweep_labelIndex code)]
      rw [hNew, step_at hc]
      refine execute_agree_shrinks hAgree hLive ?_
      intro t hIs hWrites
      by_contra hNot
      refine hStays t hNot ?_ hIs
      rw [Bool.eq_false_iff, ne_eq, writesTempAt_iff hc]
      exact hWrites

theorem dropped_run (hSafe : ∀ path state, machine.Reaches code start path state →
      DropSafe machine code path state) (n : Nat) :
    ∀ {path : List Nat} {e s : IRState V M}, machine.Reaches code start path s →
      AgreeOff (DroppedAfter code path) e s →
      Outcome.AgreeOff (fun _ => True) (machine.run (sweepTempWrites code).1 n (.running e))
        (machine.run code n (.running s)) := by
  induction n with
  | zero =>
    intro path e s _ hAgree
    exact .running (hAgree.mono fun _ _ => trivial)
  | succ n ih =>
    intro path e s hReach hAgree
    rw [Machine.run, Machine.run]
    have hOut := dropped_step hReach (hSafe path s hReach) hAgree
    generalize machine.step (sweepTempWrites code).1 e = outcome at hOut
    generalize hStep : machine.step code s = outcome' at hOut
    cases hOut with
    | running hNext => exact ih (hReach.step hStep) hNext
    | returned hLast =>
      cases n <;> exact .returned (hLast.mono fun _ _ => trivial)
    | stuck => cases n <;> exact .stuck

/-- **Nothing but dropped temps changes.** On a run whose steps meet the condition, the function
and the one without its dead temp writes go through the same places with the same symbols,
memory and calls, and return the same value or trap at the same place. -/
theorem deadTempWrites_in_step (machine : Machine V M) (function : IRFunction) (start : IRState V M)
    (hSafe : ∀ path state, machine.Reaches function.instructions start path state →
      DropSafe machine function.instructions path state) (n : Nat) :
    Outcome.AgreeOff (fun _ => True)
      (machine.run (irEliminateDeadTempWritesPass function).instructions n (.running start))
      (machine.run function.instructions n (.running start)) := by
  refine dropped_run hSafe n .start ⟨rfl, rfl, rfl, rfl, fun _ _ => rfl⟩

/-- One sum is read behind a label, the other is not read. -/
def unreadSum : IRFunction :=
  { name := "f", parameterNames := []
    instructions :=
      [{ op := .binary, text := some "+", dest := .temp "u", lhs := .int 3, rhs := .int 4 },
       { op := .binary, text := some "+", dest := .temp "t", lhs := .int 1, rhs := .int 2 },
       { op := .label, text := some "end" },
       { op := .return_, lhs := .temp "u" }] }

theorem deadTempWrites_in_step_sum : (irEliminateDeadTempWritesPass unreadSum).instructions =
        unreadSum.instructions.set 1 { op := .nop } ∧
      ∀ n, Outcome.AgreeOff (fun _ => True)
        ((wordMachine fun _ => false).run (irEliminateDeadTempWritesPass unreadSum).instructions n
          (.running wordStart))
        ((wordMachine fun _ => false).run unreadSum.instructions n (.running wordStart)) := by
  refine ⟨by decide, ?_⟩
  refine deadTempWrites_in_step _ unreadSum wordStart ?_
  intro path state _
  obtain ⟨pc, temps, symbols, memory, trace⟩ := state
  refine ⟨?_, ?_⟩
  · intro c hc _ t p hRead hLast hCarried
    match pc with
    | 0 | 1 | 2 =>
      cases hc
      simp [IRInstruction.reads] at hRead
    | 3 =>
      cases hc
      obtain rfl : t = "u" := by simpa [IRInstruction.reads] using hRead
      have hWrites := lastWrite_writes hLast
      match p with
      | 0 =>
        rcases hCarried with hLater | hOp
        · cases hLater
        · cases hOp
      | 1 | 2 | 3 => exact absurd hWrites (by decide)
      | p + 4 => cases hWrites
    | pc + 4 => cases hc
  · rintro c hc ⟨d, t, hd, hIs, -⟩
    cases hd.symm.trans hc
    match pc with
    | 0 | 1 =>
      cases hc
      rfl
    | 2 | 3 =>
      cases hc
      cases hIs
    | pc + 4 => cases hc

-- ---
-- A loop that carries a temp
-- ---

def ReadsFollowWrites (instructions : List IRInstruction) : Prop :=
  ∀ q c, instructions[q]? = some c → ∀ t, .temp t ∈ c.reads →
    ∃ p, p < q ∧ writesTempAt instructions t p = true

def carriedTemp : IRFunction :=
  { name := "f", parameterNames := []
    instructions :=
      [{ op := .assign, dest := .symbol "i", lhs := .int 0 },
       { op := .assign, dest := .temp "t", lhs := .int 1 },
       { op := .label, text := some "head" },
       { op := .assign, dest := .symbol "x", lhs := .temp "t" },
       { op := .assign, dest := .temp "t", lhs := .int 7 },
       { op := .branchZero, lhs := .symbol "i", text := some "again" },
       { op := .return_, lhs := .symbol "x" },
       { op := .label, text := some "again" },
       { op := .assign, dest := .symbol "i", lhs := .int 1 },
       { op := .jump, text := some "head" }] }

theorem carriedTemp_follows : ReadsFollowWrites carriedTemp.instructions := by
  intro q c hc t hRead
  -- only the fourth instruction reads a temp
  have hAll : ∀ p d, carriedTemp.instructions[p]? = some d → p ≠ 3 → d.reads.all
      (fun operand => operand.temp?.isNone) = true := by
    intro p d hd hNe
    match p with
    | 0 | 1 | 2 | 4 | 5 | 6 | 7 | 8 | 9 =>
      cases hd
      rfl
    | 3 => exact absurd rfl hNe
    | p + 10 => cases hd
  by_cases hThree : q = 3
  · subst hThree
    cases hc
    obtain rfl : t = "t" := by simpa [IRInstruction.reads] using hRead
    exact ⟨1, by decide, by decide⟩
  · have := all_eq_true.mp (hAll q c hc hThree) _ hRead
    cases this

/-- **The write that the loop carries is dropped**, and the function returns another value. -/
theorem carried_temp_dropped : ReadsFollowWrites carriedTemp.instructions ∧
      ((wordMachine fun _ => false).run carriedTemp.instructions 20
        (.running wordStart)).value = some 7 ∧
      ((wordMachine fun _ => false).run (irEliminateDeadTempWritesPass carriedTemp).instructions 20
        (.running wordStart)).value = some 1 :=
  ⟨carriedTemp_follows, by decide, by decide⟩

end Mettle.IR
