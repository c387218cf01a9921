import Mettle.IR.Semantics

/-!
# Mettle — paths through a function

The control-flow graph of an instruction list, the ways through it (`Walk`) and the runs
that take them (`Machine.Reaches`). What an instruction leaves behind is still there at the
end of a way on which nobody touches it (`Machine.Reaches.kept`), whatever the way looks like: this
is how a fact about all paths becomes a fact about all executions.

The second half compares two runs. A relation of states that writes, jumps and effects keep
(`Machine.Respects`) is kept by every instruction whose operands have the same values on both
sides; states that differ in some temps and private symbols (`AgreeBut`), or in some temps only
(`AgreeOff`), are the uses of it.
-/

namespace Mettle.IR

open List

-- ---
-- The control-flow graph
-- ---

/-- Control can go from instruction `j` to instruction `k`. -/
def Edge (instructions : List IRInstruction) (j k : Nat) : Prop :=
  ∃ c, instructions[j]? = some c ∧ ((c.op ≠ .jump ∧ c.op ≠ .return_ ∧ k = j + 1) ∨
      ((c.op = .jump ∨ c.op = .branchZero ∨ c.op = .branchEq) ∧
        ∃ name, c.text = some name ∧ labelIndex instructions name = some k))

/-- A way from the entry to `k`: the instructions on it, the last one first. -/
inductive Walk (instructions : List IRInstruction) : List Nat → Nat → Prop
  | start : Walk instructions [] 0
  | step {path : List Nat} {j k : Nat} :
    Walk instructions path j → Edge instructions j k → Walk instructions (j :: path) k

variable {V M : Type} {machine : Machine V M} {code : List IRInstruction}

/-- The state after executing the instructions of `path`. -/
inductive Machine.Reaches (machine : Machine V M) (instructions : List IRInstruction)
    (start : IRState V M) : List Nat → IRState V M → Prop
  | start : Machine.Reaches machine instructions start [] start
  | step {path : List Nat} {state state' : IRState V M} :
    Machine.Reaches machine instructions start path state →
    machine.step instructions state = .running state' →
    Machine.Reaches machine instructions start (state.pc :: path) state'

variable {state : IRState V M}

section

variable {state' : IRState V M} (h : machine.step code state = .running state')
include h

theorem step_running : ∃ c, code[state.pc]? = some c ∧
      machine.execute code state c = .running state' := by
  unfold Machine.step at h
  cases hGet : code[state.pc]? with
  | none =>
    rw [hGet] at h
    cases h
  | some c =>
    rw [hGet] at h
    exact ⟨c, rfl, h⟩

theorem step_edge : Edge code state.pc state'.pc := by
  obtain ⟨c, hGet, hExec⟩ := step_running h
  refine ⟨c, hGet, ?_⟩
  by_cases hJump : c.op = .jump
  · right
    rw [Machine.execute, hJump] at hExec
    obtain ⟨name, index, hText, hIndex, rfl⟩ := jumpTo_running hExec
    exact ⟨Or.inl hJump, name, hText, hIndex⟩
  · have hReturn : c.op ≠ .return_ := by
      intro hOp
      rw [Machine.execute, hOp] at hExec
      dsimp only at hExec
      split at hExec
      · cases hExec
      · split at hExec <;> cases hExec
    rcases execute_pc hExec with hNext | hTaken
    · exact Or.inl ⟨hJump, hReturn, hNext⟩
    · exact Or.inr hTaken

end

variable {start : IRState V M} {path : List Nat}

/-- **A run follows the control-flow graph.** -/
theorem Machine.Reaches.walk (h : machine.Reaches code start path state) (hStart : start.pc = 0) :
    Walk code path state.pc := by
  induction h with
  | start =>
    rw [hStart]
    exact Walk.start
  | step _ hStep ih => exact Walk.step ih (step_edge hStep)

theorem reaches_of_run {n : Nat} : ∀ {path : List Nat} {middle : IRState V M},
      machine.Reaches code start path middle →
      machine.run code n (.running middle) = .running state →
      ∃ path', machine.Reaches code start path' state ∧ path'.length = path.length + n := by
  induction n with
  | zero =>
    intro path middle hReach hRun
    have hSame : middle = state := Outcome.running.inj hRun
    exact ⟨path, hSame ▸ hReach, rfl⟩
  | succ n ih =>
    intro path middle hReach hRun
    rw [Machine.run] at hRun
    cases hStep : machine.step code middle with
    | running next =>
      rw [hStep] at hRun
      obtain ⟨path', hReach', hLength⟩ := ih (hReach.step hStep) hRun
      refine ⟨path', hReach', ?_⟩
      rw [hLength, length_cons]
      omega
    | returned value last =>
      rw [hStep] at hRun
      cases n <;> cases hRun
    | stuck last =>
      rw [hStep] at hRun
      cases n <;> cases hRun

theorem Machine.Reaches.run_eq (h : machine.Reaches code start path state) :
    machine.run code path.length (.running start) = .running state := by
  induction h with
  | start => rfl
  | step _ hStep ih => rw [length_cons, run_succ machine ih, hStep]

variable {p : Nat}

/-- **Values survive along a way that keeps them.** -/
theorem Machine.Reaches.kept {later earlier : List Nat}
    (h : machine.Reaches code start (later ++ p :: earlier) state) :
    ∃ before after, machine.Reaches code start earlier before ∧ before.pc = p ∧
      machine.step code before = .running after ∧
      ∀ operand, (∀ q ∈ later, ∀ c, code[q]? = some c → Keeps machine.resident c operand) →
        machine.value state operand = machine.value after operand := by
  induction later generalizing state with
  | nil =>
    cases h with
    | step hReach hStep => exact ⟨_, _, hReach, rfl, hStep, fun _ _ => rfl⟩
  | cons q later ih =>
    cases h with
    | step hReach hStep =>
      obtain ⟨before, after, hBefore, hPc, hP, hKept⟩ := ih hReach
      refine ⟨before, after, hBefore, hPc, hP, ?_⟩
      intro operand hAll
      obtain ⟨c, hGet, hExec⟩ := step_running hStep
      -- the last instruction of the way keeps the operand, and so do the ones before it
      rw [execute_keeps hExec (hAll _ mem_cons_self c hGet)]
      exact hKept operand fun q' hq' => hAll q' (mem_cons_of_mem _ hq')

-- ---
-- The last write of a temp
-- ---

/-- The instruction at `p` writes the temp. -/
def writesTempAt (instructions : List IRInstruction) (t : String) (p : Nat) : Bool :=
  instructions[p]?.any fun c => c.writes.contains (.temp t)

def lastWrite (instructions : List IRInstruction) (path : List Nat) (t : String) : Option Nat :=
  path.find? (writesTempAt instructions t)

theorem lastWrite_cons (q : Nat) (path : List Nat) (t : String) : lastWrite code (q :: path) t =
      if writesTempAt code t q then some q else lastWrite code path t := by
  rw [lastWrite, find?_cons]
  cases writesTempAt code t q <;> rfl

variable {t : String}

theorem lastWrite_split (h : lastWrite code path t = some p) :
    ∃ later earlier, path = later ++ p :: earlier ∧ ∀ q ∈ later, writesTempAt code t q = false := by
  obtain ⟨-, later, earlier, rfl, hLater⟩ := find?_eq_some_iff_append.mp h
  refine ⟨later, earlier, rfl, ?_⟩
  intro q hq
  simpa using hLater q hq

theorem writesTempAt_iff {c : IRInstruction} (hc : code[p]? = some c) (t : String) :
    writesTempAt code t p = true ↔ .temp t ∈ c.writes := by
  rw [writesTempAt, hc, Option.any_some, contains_eq_mem, decide_eq_true_eq]

theorem lastWrite_writes (h : lastWrite code path t = some p) : writesTempAt code t p = true :=
  (find?_eq_some_iff_append.mp h).1

-- ---
-- Related states
-- ---

def IRInstruction.reads (instruction : IRInstruction) : List IROperand :=
  match instruction.op with
  | .nop | .label | .declareLocal | .jump | .addressOf | .inlineAsm => []
  | .branchZero | .assign | .unary | .cast | .return_ => [instruction.lhs]
  | .branchEq | .binary | .load | .rotateAdd => [instruction.lhs, instruction.rhs]
  | .store => [instruction.dest, instruction.lhs, instruction.rhs]
  | .call => instruction.arguments
  | .callIndirect => instruction.lhs :: instruction.arguments
  | .new => [instruction.rhs]
  | .countWordStarts | .memcpyInline | .simdSumI32 | .simdMatmulN32 | .simdInsertionSortI32
  | .simdDotI32 | .simdScaleI32 | .simdClampI32 | .simdReverseCopyI32 | .lowerBoundI32
  | .prefixSumI32 | .simdMinmaxI32 =>
    instruction.dest :: instruction.lhs :: instruction.rhs :: instruction.arguments

/-- A relation of states that instructions cannot break: it is kept by writes, jumps and effects
on memory that are the same on both sides. -/
structure Machine.Respects (machine : Machine V M) (R : IRState V M → IRState V M → Prop) :
    Prop where
  pc : ∀ {e s}, R e s → e.pc = s.pc
  memory : ∀ {e s}, R e s → e.memory = s.memory
  write : ∀ {e s}, R e s → ∀ dest v, R (machine.write e dest v) (machine.write s dest v)
  jump : ∀ {e s}, R e s → ∀ pc, R { e with pc } { s with pc }
  effect : ∀ {e s}, R e s → ∀ memory event,
    R { e with memory, trace := e.trace ++ event } { s with memory, trace := s.trace ++ event }

/-- The same for outcomes: both run on, both return the same value, or both are stuck. -/
inductive Outcome.Related (R : IRState V M → IRState V M → Prop) : Outcome V M → Outcome V M → Prop
  | running {e s : IRState V M} : R e s → Outcome.Related R (.running e) (.running s)
  | returned {value : Option V} {e s : IRState V M} : R e s →
    Outcome.Related R (.returned value e) (.returned value s)
  | stuck {e s : IRState V M} : Outcome.Related R (.stuck e) (.stuck s)

variable {instruction : IRInstruction}

variable {o o' : Outcome V M} {R' : IRState V M → IRState V M → Prop}

section Related

variable {R : IRState V M → IRState V M → Prop} {e s : IRState V M}

section

variable (hR : machine.Respects R) (h : R e s)
include hR h

theorem Machine.Respects.next : R e.next s.next := by
  have hNext := hR.jump h (s.pc + 1)
  rw [IRState.next, IRState.next, hR.pc h]
  exact hNext

theorem Machine.Respects.memory_set (memory : M) : R { e with memory } { s with memory } := by
  have hEffect := hR.effect h memory []
  rw [append_nil, append_nil] at hEffect
  exact hEffect

theorem jumpTo_related (target : Option String) :
    Outcome.Related R (jumpTo code e target) (jumpTo code s target) := by
  unfold jumpTo
  split
  · exact .stuck
  · split
    · exact .stuck
    · exact .running (hR.jump h _)

theorem deliver_related (dest : IROperand) (result : Option (V × M × List (CallEvent V))) :
    Outcome.Related R (machine.deliver e dest result) (machine.deliver s dest result) := by
  rcases result with _ | ⟨v, memory, calls⟩
  · exact .stuck
  · exact .running (hR.next (hR.write (hR.effect h memory calls) dest v))

end

theorem mapM_value_eq (operands : List IROperand)
    (h : ∀ operand ∈ operands, machine.value e operand = machine.value s operand) :
    operands.mapM (machine.value e) = operands.mapM (machine.value s) := by
  induction operands with
  | nil => rfl
  | cons operand rest ih =>
    rw [mapM_cons, mapM_cons, h operand mem_cons_self, ih fun o ho => h o (mem_cons_of_mem _ ho)]

theorem executeKernel_related (hR : machine.Respects R) (h : R e s) (hValue : ∀ operand ∈
      instruction.dest :: instruction.lhs :: instruction.rhs :: instruction.arguments, machine.value
      e operand = machine.value s operand) :
    Outcome.Related R (machine.executeKernel e instruction)
      (machine.executeKernel s instruction) := by
  unfold Machine.executeKernel
  rw [map_congr_left hValue, hR.memory h]
  split
  · exact .stuck
  · rename_i v w memory _
    have hMemory : R (if instruction.op.kernelWritesMemory then { e with memory } else e)
        (if instruction.op.kernelWritesMemory then { s with memory } else s) := by
      split
      · exact hR.memory_set h memory
      · exact h
    refine .running ?_
    split
    · exact hR.next (hR.write (hR.write hMemory _ _) _ _)
    · exact hR.next (hR.write hMemory _ _)

theorem produce_congr (hOp : instruction.op.produces = true) (hMemory : e.memory = s.memory)
    (hValue : ∀ operand ∈ instruction.reads, machine.value e operand = machine.value s operand) :
    machine.produce e instruction = machine.produce s instruction := by
  unfold IRInstruction.reads at hValue
  unfold Machine.produce Machine.compute
  cases hCase : instruction.op <;> rw [hCase] at hOp hValue <;>
    first | exact absurd hOp (by decide) | skip
  case call => dsimp only; rw [mapM_value_eq instruction.arguments hValue, hMemory]
  case callIndirect =>
    rw [hValue _ mem_cons_self, hMemory, mapM_value_eq instruction.arguments
      fun o ho => hValue o (mem_cons_of_mem _ ho)]
  all_goals
    simp_all only [mem_cons, not_mem_nil, or_false, forall_eq, forall_eq_or_imp]

/-- **An instruction cannot tell related states apart that agree on what it reads.** -/
theorem execute_related (hR : machine.Respects R) (h : R e s) (hAsm : instruction.op ≠ .inlineAsm)
    (hValue : ∀ operand ∈ instruction.reads, machine.value e operand = machine.value s operand) :
    Outcome.Related R (machine.execute code e instruction)
      (machine.execute code s instruction) := by
  have hMemory := hR.memory h
  by_cases hProduces : instruction.op.produces = true
  · rw [execute_produces hProduces, execute_produces hProduces,
      produce_congr hProduces hMemory hValue]
    exact deliver_related hR h _ _
  by_cases hKernel : instruction.op.isKernel = true
  · rw [execute_kernel hKernel, execute_kernel hKernel]
    refine executeKernel_related hR h ?_
    unfold IRInstruction.reads at hValue
    cases hOp : instruction.op <;> rw [hOp] at hKernel hValue <;>
      first | exact hValue | exact absurd hKernel (by decide)
  unfold IRInstruction.reads at hValue
  unfold Machine.execute
  cases hOp : instruction.op <;> rw [hOp] at hProduces hKernel hValue hAsm <;> dsimp only <;>
    first | exact absurd rfl hKernel | exact absurd rfl hProduces | skip
  case nop => exact .running (hR.next h)
  case label => exact .running (hR.next h)
  case declareLocal => exact .running (hR.next h)
  case jump => exact jumpTo_related hR h _
  case branchZero =>
    rw [hValue _ mem_cons_self]
    split
    · exact .stuck
    · split
      · exact jumpTo_related hR h _
      · exact .running (hR.next h)
  case branchEq =>
    rw [hValue _ mem_cons_self, hValue instruction.rhs (by simp)]
    split
    · split
      · exact jumpTo_related hR h _
      · exact .running (hR.next h)
    · exact .stuck
  case store =>
    rw [hValue _ mem_cons_self, hValue instruction.lhs (by simp),
      hValue instruction.rhs (by simp), hMemory]
    split
    · split
      · exact .stuck
      · exact .running (hR.next (hR.memory_set h _))
    · exact .stuck
  case rotateAdd =>
    rw [hValue _ mem_cons_self, hValue instruction.rhs (by simp)]
    split
    · split
      · exact .stuck
      · rw [machine.value_write_congr (hValue instruction.rhs (by simp))]
        exact .running (hR.next (hR.write (hR.write (hR.write h _ _) _ _) _ _))
    · exact .stuck
  case return_ =>
    split
    · exact .returned h
    · rw [hValue _ mem_cons_self]
      split
      · exact .stuck
      · exact .returned h
  case inlineAsm => exact absurd rfl hAsm

theorem Outcome.Related.mono (h : Outcome.Related R o o')
    (hMono : ∀ e s, R e s → R' e s) : Outcome.Related R' o o' := by
  cases h with
  | running h => exact .running (hMono _ _ h)
  | returned h => exact .returned (hMono _ _ h)
  | stuck => exact .stuck

theorem Outcome.Related.comp {o'' : Outcome V M}
    (h : Outcome.Related R o o') (h' : Outcome.Related R' o' o'') :
    Outcome.Related (fun e s => ∃ r, R e r ∧ R' r s) o o'' := by
  cases h with
  | running h =>
    cases h' with
    | running h' => exact .running ⟨_, h, h'⟩
  | returned h =>
    cases h' with
    | returned h' => exact .returned ⟨_, h, h'⟩
  | stuck =>
    cases h' with
    | stuck => exact .stuck

/-- **Steps that keep a relation keep it along a run**, where the old function's run meets
what its steps ask for. -/
theorem run_related {old new : List IRInstruction} {Fits : IRState V M → Prop}
    (hStep : ∀ e s, Fits s → R e s →
      Outcome.Related R (machine.step new e) (machine.step old s)) (n : Nat) :
    ∀ e s, (∀ m s', machine.run old m (.running s) = .running s' → Fits s') → R e s →
      Outcome.Related R (machine.run new n (.running e)) (machine.run old n (.running s)) := by
  induction n with
  | zero =>
    intro e s _ h
    exact .running h
  | succ n ih =>
    intro e s hFits h
    rw [Machine.run, Machine.run]
    have hOut := hStep e s (hFits 0 s rfl) h
    generalize machine.step new e = outcome at hOut
    generalize hOld : machine.step old s = outcome' at hOut
    cases hOut with
    | @running _ s' hNext =>
      refine ih _ _ ?_ hNext
      intro m r hRun
      refine hFits (m + 1) r ?_
      rw [Machine.run, hOld]
      exact hRun
    | returned hLast => cases n <;> exact .returned hLast
    | stuck => cases n <;> exact .stuck

end Related

-- ---
-- States that differ in some temps and private symbols
-- ---

/-- The states agree, but for temps and symbols that are `dead`. -/
structure AgreeBut (dead : IROperand → Prop) (e s : IRState V M) : Prop where
  pc : e.pc = s.pc
  memory : e.memory = s.memory
  trace : e.trace = s.trace
  temps : ∀ t, ¬ dead (.temp t) → e.temps t = s.temps t
  locals : ∀ x, ¬ dead (.symbol x) → e.locals x = s.locals x

def IRState.forget (state : IRState V M) : IROperand → IRState V M
  | .temp t => { state with temps := Function.update state.temps t none }
  | .symbol x => { state with locals := Function.update state.locals x none }
  | _ => state

section AgreementBut

variable {dead : IROperand → Prop} {e s : IRState V M}

theorem AgreeBut.refl (dead : IROperand → Prop) (s : IRState V M) : AgreeBut dead s s :=
  ⟨rfl, rfl, rfl, fun _ _ => rfl, fun _ _ => rfl⟩

theorem AgreeBut.trans {r : IRState V M} (h : AgreeBut dead r e) (h' : AgreeBut dead e s) :
    AgreeBut dead r s :=
  ⟨h.pc.trans h'.pc, h.memory.trans h'.memory, h.trace.trans h'.trace,
    fun t ht => (h.temps t ht).trans (h'.temps t ht),
    fun x hx => (h.locals x hx).trans (h'.locals x hx)⟩

section

variable (h : AgreeBut dead e s)
include h

theorem AgreeBut.mono {dead' : IROperand → Prop} (hDead : ∀ operand, dead operand → dead' operand) :
    AgreeBut dead' e s :=
  ⟨h.pc, h.memory, h.trace, fun t hLive => h.temps t fun hIs => hLive (hDead _ hIs),
    fun x hLive => h.locals x fun hIs => hLive (hDead _ hIs)⟩

theorem AgreeBut.value {operand : IROperand} (hLive : ¬ dead operand) :
    machine.value e operand = machine.value s operand := by
  cases operand with
  | temp t => exact h.temps t hLive
  | symbol x => simp only [Machine.value, Machine.symbolValue, h.memory, h.locals x hLive]
  | _ => rfl

theorem AgreeBut.write (dest : IROperand) (v : V) :
    AgreeBut dead (machine.write e dest v) (machine.write s dest v) := by
  cases dest with
  | temp name =>
    refine ⟨h.pc, h.memory, h.trace, ?_, h.locals⟩
    intro t hLive
    simp only [Machine.write, Function.update_apply]
    split
    · rfl
    · exact h.temps t hLive
  | symbol name =>
    by_cases hRes : machine.resident name = true
    · simp only [Machine.write, if_pos hRes, h.memory]
      exact ⟨h.pc, rfl, h.trace, h.temps, h.locals⟩
    · simp only [Machine.write, if_neg hRes]
      refine ⟨h.pc, h.memory, h.trace, h.temps, ?_⟩
      intro x hLive
      simp only [Function.update_apply]
      split
      · rfl
      · exact h.locals x hLive
  | _ => exact h

theorem AgreeBut.write_dead {dest : IROperand} (hDead : dead dest)
    (hPrivate : ∀ x, dead (.symbol x) → machine.resident x = false) (v : V) :
    AgreeBut dead e (machine.write s dest v) := by
  cases dest with
  | temp name =>
    refine ⟨h.pc, h.memory, h.trace, ?_, h.locals⟩
    intro t hLive
    have hNe : t ≠ name := by
      rintro rfl
      exact hLive hDead
    rw [h.temps t hLive]
    exact (Function.update_of_ne hNe _ _).symm
  | symbol name =>
    rw [Machine.write, if_neg (by rw [hPrivate name hDead]; exact Bool.false_ne_true)]
    refine ⟨h.pc, h.memory, h.trace, h.temps, ?_⟩
    intro x hLive
    have hNe : x ≠ name := by
      rintro rfl
      exact hLive hDead
    rw [h.locals x hLive]
    exact (Function.update_of_ne hNe _ _).symm
  | _ => exact h

theorem AgreeBut.pc_set {pc pc' : Nat} (hPc : pc = pc') :
    AgreeBut dead { e with pc := pc } { s with pc := pc' } :=
  ⟨hPc, h.memory, h.trace, h.temps, h.locals⟩

theorem AgreeBut.next : AgreeBut dead e.next s.next :=
  h.pc_set (by rw [h.pc])

end

theorem agreeBut_respects (machine : Machine V M) (dead : IROperand → Prop) :
    machine.Respects (AgreeBut dead) where
  pc h := h.pc
  memory h := h.memory
  write h := h.write
  jump h _ := h.pc_set rfl
  effect h _ _ := ⟨h.pc, rfl, by rw [h.trace], h.temps, h.locals⟩

theorem AgreeBut.forget (s : IRState V M) {place : IROperand} (hDead : dead place) :
    AgreeBut dead s (s.forget place) := by
  cases place with
  | temp t =>
    refine ⟨rfl, rfl, rfl, ?_, fun _ _ => rfl⟩
    intro t' hLive
    have hNe : t' ≠ t := by
      rintro rfl
      exact hLive hDead
    exact (Function.update_of_ne hNe _ _).symm
  | symbol x =>
    refine ⟨rfl, rfl, rfl, fun _ _ => rfl, ?_⟩
    intro x' hLive
    have hNe : x' ≠ x := by
      rintro rfl
      exact hLive hDead
    exact (Function.update_of_ne hNe _ _).symm
  | _ => exact .refl dead s

theorem execute_agreeBut_cleared (h : AgreeBut dead e s) {place : IROperand} (hPlace : (∃ name,
      place = .temp name) ∨ ∃ name, place = .symbol name ∧ machine.resident name = false)
    (hAsm : instruction.op ≠ .inlineAsm) (hLive : ∀ operand ∈ instruction.reads, ¬ dead operand)
    (hCleared : machine.value s place = none) (hWritten : place ∈ instruction.writes)
    {e' s' : IRState V M} (he : machine.execute code e instruction = .running e')
    (hs : machine.execute code s instruction = .running s') :
    machine.value e' place = machine.value s' place := by
  have hStorage : (∃ name, place = .temp name) ∨ ∃ name, place = .symbol name :=
    hPlace.imp_right fun ⟨name, hEq, _⟩ => ⟨name, hEq⟩
  have hEffect : ∀ (state : IRState V M) (memory : M) (trace : List (CallEvent V)),
      machine.value { state with memory, trace } place = machine.value state place := by
    intro state memory trace
    refine machine.value_memory trace ?_
    rintro x rfl hRes
    rcases hPlace with ⟨name, hEq⟩ | ⟨name, hEq, hPrivate⟩
    · cases hEq
    · cases hEq
      rw [hPrivate] at hRes
      cases hRes
  -- a write makes the place equal, everything else leaves it as it is
  let R : IRState V M → IRState V M → Prop := fun e s =>
    AgreeBut dead e s ∧
      (machine.value e place = machine.value s place ∨ machine.value s place = none)
  have hR : machine.Respects R := by
    refine ⟨fun h => h.1.pc, fun h => h.1.memory, ?_, ?_, ?_⟩
    · rintro e s ⟨hAgree, hValue⟩ dest v
      refine ⟨hAgree.write dest v, ?_⟩
      by_cases hEq : place = dest
      · rw [← hEq, machine.value_write_self hStorage, machine.value_write_self hStorage]
        exact Or.inl rfl
      · rw [machine.value_write_of_ne hEq, machine.value_write_of_ne hEq]
        exact hValue
    · rintro e s ⟨hAgree, hValue⟩ pc
      refine ⟨hAgree.pc_set rfl, ?_⟩
      exact hValue
    · rintro e s ⟨hAgree, hValue⟩ memory event
      refine ⟨(agreeBut_respects machine dead).effect hAgree memory event, ?_⟩
      rw [hEffect e, hEffect s]
      exact hValue
  have hOut : Outcome.Related R (machine.execute code e instruction)
      (machine.execute code s instruction) :=
    execute_related hR ⟨h, Or.inr hCleared⟩ hAsm fun operand hMem => h.value (hLive operand hMem)
  rw [he, hs] at hOut
  obtain ⟨v, hValue⟩ := execute_writes_place hStorage hWritten hs
  cases hOut with
  | running hRel =>
    rcases hRel.2 with hEq | hNone
    · exact hEq
    · rw [hNone] at hValue
      cases hValue

/-- **An instruction cannot tell states apart that agree on what it reads**, and what it writes
is the same in both. -/
theorem execute_agreeBut (h : AgreeBut dead e s)
    (hPrivate : ∀ x, dead (.symbol x) → machine.resident x = false)
    (hAsm : instruction.op ≠ .inlineAsm) (hLive : ∀ operand ∈ instruction.reads, ¬ dead operand) :
    Outcome.Related (AgreeBut fun operand => dead operand ∧ operand ∉ instruction.writes)
      (machine.execute code e instruction) (machine.execute code s instruction) := by
  have hOut : Outcome.Related (AgreeBut dead) (machine.execute code e instruction)
      (machine.execute code s instruction) :=
    execute_related (agreeBut_respects machine dead) h hAsm
      fun operand hMem => h.value (hLive operand hMem)
  generalize he : machine.execute code e instruction = outcome at hOut
  generalize hs : machine.execute code s instruction = outcome' at hOut
  cases hOut with
  | stuck => exact .stuck
  | returned hAgree =>
    have hWrites : instruction.writes = [] := by
      rw [IRInstruction.writes, (execute_returned hs).1]
      rfl
    refine .returned (hAgree.mono ?_)
    intro operand hDead
    refine ⟨hDead, ?_⟩
    rw [hWrites]
    exact not_mem_nil
  | running hAgree =>
    -- compare both with a state that has no value for the written place
    have hWritten : ∀ place, dead place → place ∈ instruction.writes →
        ((∃ name, place = .temp name) ∨
          ∃ name, place = .symbol name ∧ machine.resident name = false) →
        machine.value (s.forget place) place = none → ∀ e' s',
        machine.execute code e instruction = .running e' →
        machine.execute code s instruction = .running s' →
        machine.value e' place = machine.value s' place := by
      intro place hDead hMem hPlace hCleared e' s' he hs
      have hSelf : AgreeBut dead s (s.forget place) := .forget s hDead
      have hOther : AgreeBut dead e (s.forget place) := h.trans hSelf
      have hThird : Outcome.Related (AgreeBut dead) (machine.execute code e instruction)
          (machine.execute code (s.forget place) instruction) :=
        execute_related (agreeBut_respects machine dead) hOther hAsm
          fun operand hMem => hOther.value (hLive operand hMem)
      rw [he] at hThird
      generalize ht : machine.execute code (s.forget place) instruction = third at hThird
      cases hThird with
      | running _ =>
        rw [execute_agreeBut_cleared hOther hPlace hAsm hLive hCleared hMem he ht,
          execute_agreeBut_cleared hSelf hPlace hAsm hLive hCleared hMem hs ht]
    refine .running ⟨hAgree.pc, hAgree.memory, hAgree.trace, ?_, ?_⟩
    · intro t hNot
      by_cases hDead : dead (.temp t)
      · have hMem : IROperand.temp t ∈ instruction.writes := by
          by_contra hMem
          exact hNot ⟨hDead, hMem⟩
        exact hWritten (.temp t) hDead hMem (Or.inl ⟨t, rfl⟩) (Function.update_self _ _ _) _ _ he hs
      · exact hAgree.temps t hDead
    · intro x hNot
      by_cases hDead : dead (.symbol x)
      · have hMem : IROperand.symbol x ∈ instruction.writes := by
          by_contra hMem
          exact hNot ⟨hDead, hMem⟩
        have hValue : ∀ state : IRState V M, machine.value state (.symbol x) = state.locals x := by
          intro state
          rw [Machine.value, Machine.symbolValue, hPrivate x hDead]
          rfl
        have hSame := hWritten (.symbol x) hDead hMem (Or.inr ⟨x, rfl, hPrivate x hDead⟩)
          (by rw [hValue]; exact Function.update_self _ _ _) _ _ he hs
        rwa [hValue, hValue] at hSame
      · exact hAgree.locals x hDead

end AgreementBut

-- ---
-- States that differ in some temps only
-- ---

/-- The states agree, but for temps that are `dead`. -/
structure AgreeOff (dead : String → Prop) (e s : IRState V M) : Prop where
  pc : e.pc = s.pc
  locals : e.locals = s.locals
  memory : e.memory = s.memory
  trace : e.trace = s.trace
  temps : ∀ t, ¬ dead t → e.temps t = s.temps t

/-- The same for outcomes: both run on, both return the same value, or both are stuck. -/
inductive Outcome.AgreeOff (dead : String → Prop) : Outcome V M → Outcome V M → Prop
  | running {e s : IRState V M} : IR.AgreeOff dead e s →
    Outcome.AgreeOff dead (.running e) (.running s)
  | returned {value : Option V} {e s : IRState V M} : IR.AgreeOff dead e s →
    Outcome.AgreeOff dead (.returned value e) (.returned value s)
  | stuck {e s : IRState V M} : Outcome.AgreeOff dead (.stuck e) (.stuck s)

section Agreement

variable {dead dead' : String → Prop} {e s : IRState V M}

theorem AgreeOff.mono (h : AgreeOff dead e s) (hDead : ∀ t, dead t → dead' t) :
    AgreeOff dead' e s :=
  ⟨h.pc, h.locals, h.memory, h.trace, fun t hLive => h.temps t fun hIs => hLive (hDead t hIs)⟩

section

variable (h : AgreeOff dead e s)
include h

theorem AgreeOff.value {operand : IROperand} (hLive : ∀ t, operand = .temp t → ¬ dead t) :
    machine.value e operand = machine.value s operand := by
  cases operand with
  | temp t => exact h.temps t (hLive t rfl)
  | symbol name => simp only [Machine.value, Machine.symbolValue, h.locals, h.memory]
  | _ => rfl

theorem AgreeOff.write (dest : IROperand) (v : V) :
    AgreeOff dead (machine.write e dest v) (machine.write s dest v) := by
  cases dest with
  | temp name =>
    refine ⟨h.pc, h.locals, h.memory, h.trace, ?_⟩
    intro t hLive
    simp only [Machine.write, Function.update_apply]
    split
    · rfl
    · exact h.temps t hLive
  | symbol name =>
    by_cases hRes : machine.resident name = true
    · simp only [Machine.write, if_pos hRes, h.memory]
      exact ⟨h.pc, h.locals, rfl, h.trace, h.temps⟩
    · simp only [Machine.write, if_neg hRes, h.locals]
      exact ⟨h.pc, rfl, h.memory, h.trace, h.temps⟩
  | _ => exact h

theorem AgreeOff.write_dead (hDead : dead t) (v : V) :
    AgreeOff dead e (machine.write s (.temp t) v) := by
  refine ⟨h.pc, h.locals, h.memory, h.trace, ?_⟩
  intro t' hLive
  have hNe : t' ≠ t := by
    intro hEq
    rw [hEq] at hLive
    exact hLive hDead
  rw [h.temps t' hLive]
  exact (Function.update_of_ne hNe _ _).symm

theorem AgreeOff.pc_set {pc pc' : Nat} (hPc : pc = pc') :
    AgreeOff dead { e with pc := pc } { s with pc := pc' } :=
  ⟨hPc, h.locals, h.memory, h.trace, h.temps⟩

theorem AgreeOff.next : AgreeOff dead e.next s.next :=
  h.pc_set (by rw [h.pc])

theorem finish_agree (dest : IROperand) (result : Option V) :
    Outcome.AgreeOff dead (machine.finish e dest result) (machine.finish s dest result) := by
  cases result with
  | none => exact .stuck
  | some v => exact .running (h.write dest v).next

end

theorem agreeOff_respects (dead : String → Prop) : machine.Respects (AgreeOff dead) where
  pc h := h.pc
  memory h := h.memory
  write h := h.write
  jump h _ := h.pc_set rfl
  effect h _ _ := ⟨h.pc, h.locals, rfl, by rw [h.trace], h.temps⟩

theorem Outcome.Related.agreeOff (h : Outcome.Related (IR.AgreeOff dead) o o') :
    Outcome.AgreeOff dead o o' := by
  cases h with
  | running h => exact .running h
  | returned h => exact .returned h
  | stuck => exact .stuck

section

variable (h : AgreeOff dead e s)
  (hLive : ∀ operand ∈ instruction.reads, ∀ t, operand = .temp t → ¬ dead t)
include h hLive

/-- **An instruction cannot tell states apart that agree on what it reads.** -/
theorem execute_agree : Outcome.AgreeOff dead (machine.execute instructions e instruction)
      (machine.execute instructions s instruction) := by
  by_cases hAsm : instruction.op = .inlineAsm
  · unfold Machine.execute
    rw [hAsm]
    rw [h.locals, h.memory]
    cases instruction.text with
    | none => exact .stuck
    | some code =>
      dsimp only
      split
      · exact .stuck
      · exact .running (AgreeOff.next ⟨h.pc, rfl, rfl, h.trace, h.temps⟩)
  · refine (execute_related (agreeOff_respects dead) h hAsm ?_).agreeOff
    intro operand hMem
    exact h.value (hLive operand hMem)

/-- **What an instruction writes is the same in both states.** -/
theorem execute_agree_written (hWritten : .temp t ∈ instruction.writes) {e' s' : IRState V M}
    (he : machine.execute code e instruction = .running e')
    (hs : machine.execute code s instruction = .running s') : e'.temps t = s'.temps t := by
  have hAsm : instruction.op ≠ .inlineAsm := by
    intro hOp
    rw [IRInstruction.writes, hOp] at hWritten
    simp [IROpcode.writesDestination] at hWritten
  have hBut : AgreeBut (fun operand => ∃ t, operand = .temp t ∧ dead t) e s := by
    refine ⟨h.pc, h.memory, h.trace, ?_, fun x _ => congrFun h.locals x⟩
    intro t' hNot
    exact h.temps t' fun hDead => hNot ⟨t', rfl, hDead⟩
  have hPrivate : ∀ x, (∃ t, IROperand.symbol x = .temp t ∧ dead t) →
      machine.resident x = false := by
    rintro x ⟨t', hEq, -⟩
    cases hEq
  have hReads : ∀ operand ∈ instruction.reads, ¬ ∃ t, operand = .temp t ∧ dead t := by
    rintro operand hMem ⟨t', rfl, hDead⟩
    exact hLive _ hMem t' rfl hDead
  have hOut : Outcome.Related _ (machine.execute code e instruction)
      (machine.execute code s instruction) := execute_agreeBut hBut hPrivate hAsm hReads
  rw [he, hs] at hOut
  cases hOut with
  | running hAgree => exact hAgree.temps t fun hDead => hDead.2 hWritten

theorem execute_agree_shrinks (hDead : ∀ t, dead t → .temp t ∉ instruction.writes → dead' t) :
    Outcome.AgreeOff dead' (machine.execute code e instruction)
      (machine.execute code s instruction) := by
  have hOut : Outcome.AgreeOff dead (machine.execute code e instruction)
      (machine.execute code s instruction) := execute_agree h hLive
  generalize he : machine.execute code e instruction = outcome at hOut
  generalize hs : machine.execute code s instruction = outcome' at hOut
  cases hOut with
  | stuck => exact .stuck
  | returned hAgree =>
    have hWrites : instruction.writes = [] := by
      rw [IRInstruction.writes, (execute_returned hs).1]
      rfl
    refine .returned (hAgree.mono ?_)
    intro t hIs
    refine hDead t hIs ?_
    rw [hWrites]
    exact not_mem_nil
  | running hAgree =>
    refine .running ⟨hAgree.pc, hAgree.locals, hAgree.memory, hAgree.trace, ?_⟩
    intro t hNot
    by_cases hWrites : .temp t ∈ instruction.writes
    · exact execute_agree_written h hLive hWrites he hs
    · exact hAgree.temps t fun hIs => hNot (hDead t hIs hWrites)

end

end Agreement

end Mettle.IR
