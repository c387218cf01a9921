import Mettle.IR.Paths

/-!
# Mettle — locals that share storage

`code_generator_binary_collect_symbol_aliases` gives a local the storage of the symbol it is
copied from: the copy is dropped, and every read of the local reads the other symbol. It asks
that both symbols have one write in the text of the function.

One write in the text can be executed many times, it need not come before the reads, and some
writes are not counted: the one that fills a parameter at the entry, and those of the rotate
instruction and the min/max kernel to operands other than their destination. `AliasSafe` says,
from the text alone, that a copy is still current at every read.
-/

namespace Mettle.Codegen

open Mettle.IR List

-- ---
-- Collecting the aliases
-- ---

/-- What the code generator knows about the symbols of a function. -/
structure AliasContext where
  isLocal : String → Bool
  -- a parameter or a local
  hasSlot : String → Bool
  addressTaken : String → Bool
  -- the type is not known, or fits a general register
  gpPromotable : String → Bool
  floatMarked : String → Bool
  scalarAccessible : String → Bool
  local_hasSlot : ∀ x, isLocal x = true → hasSlot x = true

def AliasContext.resident (context : AliasContext) (x : String) : Bool :=
  context.addressTaken x || !context.hasSlot x

/-- `code_generator_binary_instruction_writes_dest`. -/
def instructionWritesDest : IROpcode → Bool
  | .nop | .label | .jump | .branchZero | .branchEq | .declareLocal => false
  | _ => true

/-- The writes to a symbol in the text. -/
def symbolWriteCount (function : IRFunction) (name : String) : Nat :=
  function.instructions.countP fun instruction =>
    instructionWritesDest instruction.op && instruction.dest == .symbol name

/-- `BinarySymbolAliasTable`: locals with the symbols whose storage they get. -/
abbrev AliasTable := List (String × String)

/-- Enters an alias once. -/
def symbolAliasTableAdd (aliases : AliasTable) (name target : String) : AliasTable :=
  if (aliases.lookup name).isSome then aliases else aliases ++ [(name, target)]

def canAlias (context : AliasContext) (function : IRFunction) (aliases : AliasTable)
    (name target : String) : Bool :=
  name != target && context.isLocal name && context.hasSlot target &&
    symbolWriteCount function name == 1 && symbolWriteCount function target == 1 &&
    !context.addressTaken name && !context.addressTaken target &&
    (aliases.lookup target).isNone &&
    context.gpPromotable name && context.gpPromotable target &&
    !context.floatMarked name && !context.floatMarked target &&
    context.scalarAccessible name && context.scalarAccessible target

def collectAlias (context : AliasContext) (function : IRFunction) (aliases : AliasTable)
    (instruction : IRInstruction) : AliasTable :=
  match instruction.op, instruction.dest, instruction.lhs with
  | .assign, .symbol name, .symbol target =>
    if canAlias context function aliases name target then symbolAliasTableAdd aliases name target
    else aliases
  | _, _, _ => aliases

/-- The aliases that the copies of a function give. -/
def collectSymbolAliases (context : AliasContext) (function : IRFunction) : AliasTable :=
  function.instructions.foldl (collectAlias context function) []

-- ---
-- Shared storage
-- ---

/-- The recursion of `code_generator_binary_emit_operand_load` through the table. -/
def resolveAlias (aliases : AliasTable) : Nat → String → String
  | 0, name => name
  | depth + 1, name =>
    match aliases.lookup name with
    | some target => resolveAlias aliases depth target
    | none => name

def storageOf (aliases : AliasTable) (name : String) : String :=
  resolveAlias aliases aliases.length name

def isElidedCopy (aliases : AliasTable) (instruction : IRInstruction) : Bool :=
  match instruction.op, instruction.dest, instruction.lhs with
  | .assign, .symbol name, .symbol target => aliases.lookup name == some target
  | _, _, _ => false

section Machine

variable {V M : Type} (machine : Machine V M) (aliases : AliasTable)

def shareStorage (state : IRState V M) : IRState V M :=
  { state with
    locals := fun name =>
      match aliases.lookup name with
      | some _ => machine.symbolValue state (storageOf aliases name)
      | none => state.locals name }

def aliasedStep (instructions : List IRInstruction) (state : IRState V M) : Outcome V M :=
  match instructions[state.pc]? with
  | none => .returned none state
  | some instruction =>
    if isElidedCopy aliases instruction then .running state.next
    else machine.execute instructions (shareStorage machine aliases state) instruction

/-- At most `n` steps. -/
def aliasedRun (instructions : List IRInstruction) : Nat → Outcome V M → Outcome V M
  | n + 1, .running state => aliasedRun instructions n (aliasedStep machine aliases instructions state)
  | _, outcome => outcome

end Machine

-- ---
-- When sharing is sound
-- ---

/-- The links that lead from a symbol to its storage. -/
inductive Link (aliases : AliasTable) : String → String → String → Prop
  | here {x t : String} : aliases.lookup x = some t → Link aliases x x t
  | later {x t a b : String} : aliases.lookup x = some t → Link aliases t a b → Link aliases x a b

/-- On the way, the copy of the word `b` to `a` is the last thing that happened to either of
them. (Symbols that hold floats do not share storage.) -/
def CopyCurrent (resident : String → Bool) (instructions : List IRInstruction) (path : List Nat)
    (a b : String) : Prop :=
  ∃ later k earlier copy, path = later ++ k :: earlier ∧ instructions[k]? = some copy ∧
    copy.op = .assign ∧ copy.isFloat = false ∧ copy.dest = .symbol a ∧ copy.lhs = .symbol b ∧
    ∀ q ∈ later, ∀ c, instructions[q]? = some c →
      Keeps resident c (.symbol a) ∧ Keeps resident c (.symbol b)

structure AliasSafe (resident : String → Bool) (instructions : List IRInstruction)
    (aliases : AliasTable) : Prop where
  -- at every read of a local that shares storage, its copy is current, on every way
  current : ∀ (p : Nat) (c : IRInstruction) (x a b : String), instructions[p]? = some c →
    isElidedCopy aliases c = false → IROperand.symbol x ∈ c.reads → Link aliases x a b →
    ∀ path, Walk instructions path p → CopyCurrent resident instructions path a b
  -- inline assembly looks at the slots themselves
  assembly : aliases ≠ [] → ∀ c ∈ instructions, c.op ≠ .inlineAsm

/-- The states agree, but for the slots of locals that share storage. -/
structure SameButAliases {V M : Type} (aliases : AliasTable) (e s : IRState V M) : Prop where
  pc : e.pc = s.pc
  temps : e.temps = s.temps
  memory : e.memory = s.memory
  trace : e.trace = s.trace
  locals : ∀ x, aliases.lookup x = none → e.locals x = s.locals x

/-- Sharing storage cannot be observed. -/
structure AliasesSound {V M : Type} (machine : Machine V M) (context : AliasContext)
    (function : IRFunction) (start : IRState V M) : Prop where
  -- at every executed read of a local, the symbol that lends its storage has its value
  reads : ∀ n state c x target,
    machine.run function.instructions n (.running start) = .running state →
    function.instructions[state.pc]? = some c →
    isElidedCopy (collectSymbolAliases context function) c = false →
    IROperand.symbol x ∈ c.reads →
    (collectSymbolAliases context function).lookup x = some target →
    machine.value state (.symbol x) = machine.value state (.symbol target)
  -- unless a value is read that was never written, both runs are at the same place, and return
  -- the same
  runs : ∀ n, (∃ state, machine.run function.instructions n (.running start) = .stuck state) ∨
    Outcome.Related (SameButAliases (collectSymbolAliases context function))
      (aliasedRun machine (collectSymbolAliases context function) function.instructions n
        (.running start))
      (machine.run function.instructions n (.running start))

-- ---
-- The table
-- ---

/-- No local twice, no symbol twice in one entry, and no target that shared storage before. -/
structure TableOk (aliases : AliasTable) : Prop where
  distinct : ∀ entry ∈ aliases, entry.1 ≠ entry.2
  ordered : aliases.Pairwise fun earlier later => later.1 ≠ earlier.1 ∧ later.2 ≠ earlier.1

variable {aliases : AliasTable} {entry : String × String} {context : AliasContext}
  {function : IRFunction}

section Table

variable {x t : String}

theorem mem_of_lookup_eq (h : aliases.lookup x = some t) : (x, t) ∈ aliases := by
  obtain ⟨before, after, hSplit, -⟩ := lookup_eq_some_iff.mp h
  rw [hSplit]
  exact mem_append_right _ mem_cons_self

theorem lookup_eq_none_iff : aliases.lookup x = none ↔ ∀ entry ∈ aliases, entry.1 ≠ x := by
  rw [List.lookup_eq_none_iff]
  constructor
  · intro h entry hMem hEq
    exact absurd (h entry hMem) (by simp [hEq])
  · intro h entry hMem
    exact bne_iff_ne.mpr (Ne.symm (h entry hMem))

theorem collectAlias_ok (h : TableOk aliases ∧ ∀ entry ∈ aliases, context.resident entry.1 = false)
    (instruction : IRInstruction) :
    TableOk (collectAlias context function aliases instruction) ∧
      ∀ entry ∈ collectAlias context function aliases instruction,
        context.resident entry.1 = false := by
  unfold collectAlias
  split
  · rename_i name target _ _ _
    split
    · rename_i hCan
      unfold canAlias at hCan
      simp only [Bool.and_eq_true, bne_iff_ne, Bool.not_eq_true', Option.isNone_iff_eq_none] at hCan
      obtain ⟨⟨⟨⟨⟨⟨⟨⟨⟨⟨⟨⟨⟨hNe, hLocal⟩, -⟩, -⟩, -⟩, hTaken⟩, -⟩, hTarget⟩, -⟩, -⟩, -⟩, -⟩, -⟩, -⟩ := hCan
      unfold symbolAliasTableAdd
      split
      · exact h
      · rename_i hNew
        have hName : aliases.lookup name = none := Option.not_isSome_iff_eq_none.mp hNew
        refine ⟨⟨?_, ?_⟩, ?_⟩
        · intro entry hMem
          rcases mem_append.mp hMem with hOld | hLast
          · exact h.1.distinct entry hOld
          · cases mem_singleton.mp hLast
            exact hNe
        · refine pairwise_append.mpr ⟨h.1.ordered, pairwise_singleton _ _, ?_⟩
          intro earlier hEarlier later hLater
          cases mem_singleton.mp hLater
          exact ⟨Ne.symm (lookup_eq_none_iff.mp hName earlier hEarlier),
            Ne.symm (lookup_eq_none_iff.mp hTarget earlier hEarlier)⟩
        · intro entry hMem
          rcases mem_append.mp hMem with hOld | hLast
          · exact h.2 entry hOld
          · cases mem_singleton.mp hLast
            simp [AliasContext.resident, hTaken, context.local_hasSlot name hLocal]
    · exact h
  · exact h

theorem collectSymbolAliases_ok (context : AliasContext) (function : IRFunction) :
    TableOk (collectSymbolAliases context function) ∧
      ∀ entry ∈ collectSymbolAliases context function, context.resident entry.1 = false := by
  have hStart : TableOk [] ∧ ∀ entry ∈ ([] : AliasTable), context.resident entry.1 = false := by
    refine ⟨⟨?_, List.Pairwise.nil⟩, ?_⟩ <;> intro entry hMem <;> cases hMem
  unfold collectSymbolAliases
  generalize hTable : ([] : AliasTable) = table at hStart
  clear hTable
  induction function.instructions generalizing table with
  | nil => exact hStart
  | cons instruction rest ih => exact ih _ (collectAlias_ok hStart instruction)

theorem lookup_cons_of_ne (hNe : x ≠ entry.1) : (entry :: aliases).lookup x = aliases.lookup x := by
  rw [lookup_cons, beq_false_of_ne hNe]

theorem resolveAlias_cons (h : TableOk (entry :: aliases)) (depth : Nat) (hNe : x ≠ entry.1) :
    resolveAlias (entry :: aliases) depth x = resolveAlias aliases depth x ∧
      resolveAlias aliases depth x ≠ entry.1 := by
  induction depth generalizing x with
  | zero => exact ⟨rfl, hNe⟩
  | succ depth ih =>
    rw [resolveAlias, resolveAlias, lookup_cons_of_ne hNe]
    cases hLookup : aliases.lookup x with
    | none => exact ⟨rfl, hNe⟩
    | some t =>
      -- no later target is the first entry's local
      exact ih ((pairwise_cons.mp h.ordered).1 _ (mem_of_lookup_eq hLookup)).2

/-- **The symbols that lend their storage have storage of their own.** -/
theorem resolveAlias_not_aliased (h : TableOk aliases) {depth : Nat}
    (hDepth : aliases.length ≤ depth) :
    aliases.lookup (resolveAlias aliases depth x) = none := by
  induction aliases generalizing depth x with
  | nil => rfl
  | cons entry rest ih =>
    have hRest : TableOk rest :=
      ⟨fun e he => h.distinct e (mem_cons_of_mem _ he), (pairwise_cons.mp h.ordered).2⟩
    -- resolved by the rest, to something that is not the first entry's local
    have hLookup : ∀ {y d}, y ≠ entry.1 → rest.length ≤ d →
        (entry :: rest).lookup (resolveAlias (entry :: rest) d y) = none := by
      intro y d hNe hLe
      obtain ⟨hEq, hEnd⟩ := resolveAlias_cons h d hNe
      rw [hEq, lookup_cons_of_ne hEnd]
      exact ih hRest hLe
    by_cases hEq : x = entry.1
    · obtain ⟨depth', rfl⟩ : ∃ depth', depth = depth' + 1 :=
        Nat.exists_eq_succ_of_ne_zero (by rw [length_cons] at hDepth; omega)
      have hFirst : (entry :: rest).lookup x = some entry.2 := by
        rw [hEq, lookup_cons, beq_self_eq_true]
      rw [resolveAlias, hFirst]
      refine hLookup (Ne.symm (h.distinct entry mem_cons_self)) ?_
      rw [length_cons] at hDepth
      omega
    · refine hLookup hEq ?_
      rw [length_cons] at hDepth
      omega

theorem storageOf_not_aliased (h : TableOk aliases) (x : String) :
    aliases.lookup (storageOf aliases x) = none :=
  resolveAlias_not_aliased h (Nat.le_refl _)

end Table

-- ---
-- Values
-- ---

variable {path : List Nat}

section Values

variable {V M : Type} {machine : Machine V M} {instructions : List IRInstruction}

theorem CopyCurrent.value_eq {a b : String}
    (h : CopyCurrent machine.resident instructions path a b) (hNe : a ≠ b)
    (hPrivate : machine.resident a = false)
    {start state : IRState V M} (hReach : machine.Reaches instructions start path state) :
    machine.value state (.symbol a) = machine.value state (.symbol b) := by
  obtain ⟨later, k, earlier, copy, rfl, hCopy, hOp, hFloat, hDest, hLhs, hKeeps⟩ := h
  obtain ⟨before, after, -, hPc, hStep, hKept⟩ := hReach.kept
  rw [hKept (.symbol a) fun q hq c hc => (hKeeps q hq c hc).1,
    hKept (.symbol b) fun q hq c hc => (hKeeps q hq c hc).2]
  rw [Machine.step, hPc, hCopy] at hStep
  dsimp only at hStep
  rw [Machine.execute, hOp] at hStep
  obtain ⟨v, hCompute, rfl⟩ := finish_running hStep
  rw [Machine.compute, hOp] at hCompute
  dsimp only at hCompute
  rw [moved_symbol hFloat hLhs, Option.map_id] at hCompute
  have hNeB : IROperand.symbol b ≠ .symbol a := fun hEq => hNe (IROperand.symbol.inj hEq).symm
  rw [hDest, machine.value_next, machine.value_next,
    machine.value_write_private hPrivate, machine.value_write_of_ne hNeB, ← hLhs]
  exact hCompute.symm

theorem value_resolveAlias {state : IRState V M} {x : String} (depth : Nat)
    (hLinks : ∀ a b, Link aliases x a b →
      machine.value state (.symbol a) = machine.value state (.symbol b)) :
    machine.value state (.symbol (resolveAlias aliases depth x)) =
      machine.value state (.symbol x) := by
  induction depth generalizing x with
  | zero => rfl
  | succ depth ih =>
    rw [resolveAlias]
    cases hLookup : aliases.lookup x with
    | none => rfl
    | some t =>
      rw [ih fun a b hLink => hLinks a b (.later hLookup hLink), hLinks x t (.here hLookup)]

theorem SameButAliases.respects (aliases : AliasTable) :
    machine.Respects (SameButAliases aliases) where
  pc h := h.pc
  memory h := h.memory
  write := by
    intro e s h dest v
    cases dest with
    | temp name =>
      refine ⟨h.pc, ?_, h.memory, h.trace, h.locals⟩
      simp only [Machine.write, h.temps]
    | symbol name =>
      by_cases hRes : machine.resident name = true
      · simp only [Machine.write, if_pos hRes, h.memory]
        exact ⟨h.pc, h.temps, rfl, h.trace, h.locals⟩
      · simp only [Machine.write, if_neg hRes]
        refine ⟨h.pc, h.temps, h.memory, h.trace, ?_⟩
        intro x hx
        simp only [Function.update_apply]
        split
        · rfl
        · exact h.locals x hx
    | _ => exact h
  jump h _ := ⟨rfl, h.temps, h.memory, h.trace, h.locals⟩
  effect h _ _ := ⟨h.pc, h.temps, rfl, by rw [h.trace], h.locals⟩

theorem SameButAliases.share {e s : IRState V M} (h : SameButAliases aliases e s) :
    SameButAliases aliases (shareStorage machine aliases e) s := by
  refine ⟨h.pc, h.temps, h.memory, h.trace, ?_⟩
  intro x hx
  simp only [shareStorage, hx]
  exact h.locals x hx

theorem SameButAliases.symbolValue {e s : IRState V M} (h : SameButAliases aliases e s) {x : String}
    (hx : aliases.lookup x = none) : machine.symbolValue e x = machine.symbolValue s x := by
  unfold Machine.symbolValue
  rw [h.memory, h.locals x hx]

theorem SameButAliases.eq_of_nil {e s : IRState V M} (h : SameButAliases [] e s) : e = s := by
  have hLocals : e.locals = s.locals := funext fun x => h.locals x rfl
  have hPc := h.pc
  have hTemps := h.temps
  have hMemory := h.memory
  have hTrace := h.trace
  cases e
  cases s
  simp_all

theorem Outcome.related_refl (outcome : Outcome V M) :
    Outcome.Related (SameButAliases aliases) outcome outcome := by
  cases outcome with
  | running state => exact .running ⟨rfl, rfl, rfl, rfl, fun _ _ => rfl⟩
  | returned value state => exact .returned ⟨rfl, rfl, rfl, rfl, fun _ _ => rfl⟩
  | stuck state => exact .stuck

theorem SameButAliases.value_share (hOk : TableOk aliases)
    (hPrivate : ∀ x t, aliases.lookup x = some t → machine.resident x = false)
    {e s : IRState V M} (h : SameButAliases aliases e s) {operand : IROperand}
    (hLinks : ∀ x, operand = .symbol x → ∀ a b, Link aliases x a b →
      machine.value s (.symbol a) = machine.value s (.symbol b)) :
    machine.value (shareStorage machine aliases e) operand = machine.value s operand := by
  cases operand with
  | temp t =>
    show e.temps t = s.temps t
    rw [h.temps]
  | symbol x =>
    cases hLookup : aliases.lookup x with
    | none =>
      have hShare : SameButAliases aliases (shareStorage machine aliases e) s := h.share
      exact hShare.symbolValue hLookup
    | some t =>
      have hShared : machine.value (shareStorage machine aliases e) (.symbol x) =
          machine.symbolValue e (storageOf aliases x) := by
        simp [Machine.value, Machine.symbolValue, shareStorage, hPrivate x t hLookup, hLookup]
      rw [hShared, h.symbolValue (storageOf_not_aliased hOk x)]
      exact value_resolveAlias aliases.length (hLinks x rfl)
  | _ => rfl

end Values

-- ---
-- Runs
-- ---

section Runs

variable {V M : Type} {machine : Machine V M} {start : IRState V M}

theorem collected_private (hResident : ∀ x, machine.resident x = context.resident x)
    {x t : String} (h : (collectSymbolAliases context function).lookup x = some t) :
    machine.resident x = false := by
  rw [hResident]
  exact (collectSymbolAliases_ok context function).2 _ (mem_of_lookup_eq h)

theorem Link.mem {x a b : String} (h : Link aliases x a b) : (a, b) ∈ aliases := by
  induction h with
  | here h => exact mem_of_lookup_eq h
  | later _ _ ih => exact ih

theorem link_value_eq (hResident : ∀ x, machine.resident x = context.resident x)
    (hSafe : AliasSafe machine.resident function.instructions (collectSymbolAliases context function))
    (hPc : start.pc = 0) {state : IRState V M}
    (hReach : machine.Reaches function.instructions start path state) {c : IRInstruction}
    (hc : function.instructions[state.pc]? = some c)
    (hElided : isElidedCopy (collectSymbolAliases context function) c = false) {x a b : String}
    (hRead : IROperand.symbol x ∈ c.reads)
    (hLink : Link (collectSymbolAliases context function) x a b) :
    machine.value state (.symbol a) = machine.value state (.symbol b) :=
  (hSafe.current _ c x a b hc hElided hRead hLink path (hReach.walk hPc)).value_eq
    ((collectSymbolAliases_ok context function).1.distinct _ hLink.mem)
    (by rw [hResident]; exact (collectSymbolAliases_ok context function).2 _ hLink.mem) hReach

/-- A dropped copy: the run with separate storage writes a slot that is not read, or is stuck. -/
theorem elidedCopy_step (hPrivate : ∀ x t, aliases.lookup x = some t → machine.resident x = false)
    {e s : IRState V M} (h : SameButAliases aliases e s) {c : IRInstruction}
    (hElided : isElidedCopy aliases c = true) :
    (∃ state, machine.execute function.instructions s c = .stuck state) ∨
      ∃ s', machine.execute function.instructions s c = .running s' ∧
        SameButAliases aliases e.next s' := by
  unfold isElidedCopy at hElided
  split at hElided
  · rename_i name target hOp hDest hLhs
    have hLookup : aliases.lookup name = some target := beq_iff_eq.mp hElided
    rw [Machine.execute, hOp]
    rw [Machine.compute, hOp, hDest, hLhs]
    cases machine.value s (.symbol target) with
    | none => exact Or.inl ⟨s, rfl⟩
    | some v =>
      refine Or.inr ⟨_, rfl, ?_⟩
      simp only [Machine.write, hPrivate name target hLookup, Bool.false_eq_true, if_false]
      refine ⟨?_, h.temps, h.memory, h.trace, ?_⟩
      · show e.pc + 1 = s.pc + 1
        rw [h.pc]
      · intro x hx
        have hNe : x ≠ name := by
          rintro rfl
          rw [hLookup] at hx
          cases hx
        rw [IRState.next, IRState.next]
        dsimp only
        rw [Function.update_of_ne hNe]
        exact h.locals x hx
  · cases hElided

section

variable (hResident : ∀ x, machine.resident x = context.resident x)
  (hSafe : AliasSafe machine.resident function.instructions (collectSymbolAliases context
      function)) (hPc : start.pc = 0)
include hResident hSafe hPc

/-- **One step.** -/
theorem aliasedStep_related {e s : IRState V M}
    (hReach : machine.Reaches function.instructions start path s)
    (h : SameButAliases (collectSymbolAliases context function) e s) :
    (∃ state, machine.step function.instructions s = .stuck state) ∨
      Outcome.Related (SameButAliases (collectSymbolAliases context function))
        (aliasedStep machine (collectSymbolAliases context function) function.instructions e)
        (machine.step function.instructions s) := by
  have hOk := (collectSymbolAliases_ok context function).1
  unfold aliasedStep Machine.step
  rw [h.pc]
  cases hc : function.instructions[s.pc]? with
  | none => exact Or.inr (.returned h)
  | some c =>
    dsimp only
    cases hElided : isElidedCopy (collectSymbolAliases context function) c with
    | true =>
      rcases elidedCopy_step (fun x t => collected_private hResident) h hElided with
        hStuck | ⟨s', hRun, hSame⟩
      · exact Or.inl hStuck
      · rw [hRun]
        exact Or.inr (.running hSame)
    | false =>
      by_cases hNil : collectSymbolAliases context function = []
      · -- nothing is shared
        rw [hNil] at h ⊢
        obtain rfl := h.eq_of_nil
        exact Or.inr (Outcome.related_refl _)
      · refine Or.inr (execute_related (SameButAliases.respects _) h.share
          (hSafe.assembly hNil c (mem_of_getElem? hc)) ?_)
        intro operand hRead
        refine h.value_share hOk (fun x t => collected_private hResident) ?_
        rintro x rfl a b hLink
        exact link_value_eq hResident hSafe hPc hReach hc hElided hRead hLink

/-- **A whole run**, from related states on. -/
theorem aliasedRun_related (n : Nat) : ∀ {path : List Nat} {e s : IRState V M},
      machine.Reaches function.instructions start path s →
      SameButAliases (collectSymbolAliases context function) e s →
      (∃ state, machine.run function.instructions n (.running s) = .stuck state) ∨
        Outcome.Related (SameButAliases (collectSymbolAliases context function))
          (aliasedRun machine (collectSymbolAliases context function) function.instructions n
            (.running e))
          (machine.run function.instructions n (.running s)) := by
  induction n with
  | zero =>
    intro path e s _ h
    exact Or.inr (.running h)
  | succ n ih =>
    intro path e s hReach h
    rw [Machine.run, aliasedRun]
    rcases aliasedStep_related hResident hSafe hPc hReach h with ⟨state, hStuck⟩ | hStep
    · rw [hStuck]
      left
      exact ⟨state, by cases n <;> rfl⟩
    · generalize hE : aliasedStep machine (collectSymbolAliases context function)
        function.instructions e = outcomeE at hStep ⊢
      generalize hS : machine.step function.instructions s = outcomeS at hStep ⊢
      cases hStep with
      | running h' => exact ih (hReach.step hS) h'
      | returned h' =>
        right
        cases n <;> exact .returned h'
      | stuck =>
        right
        cases n <;> exact .stuck

end

/-- **Sharing storage cannot be observed** in a run of a function whose copies are current wherever
they are read. -/
theorem aliases_sound (hResident : ∀ x, machine.resident x = context.resident x)
    (hSafe : AliasSafe machine.resident function.instructions (collectSymbolAliases context function))
    (hPc : start.pc = 0) : AliasesSound machine context function start := by
  refine ⟨?_, ?_⟩
  · intro n state c x target hRun hc hElided hRead hLookup
    obtain ⟨path, hReach, -⟩ := reaches_of_run Machine.Reaches.start hRun
    exact link_value_eq hResident hSafe hPc hReach hc hElided hRead (.here hLookup)
  · intro n
    exact aliasedRun_related hResident hSafe hPc n .start ⟨rfl, rfl, rfl, rfl, fun _ _ => rfl⟩

end Runs

-- ---
-- The code with shared storage
-- ---

/-- Where an operand is read. -/
def storageOperand (aliases : AliasTable) : IROperand → IROperand
  | .symbol x => .symbol (storageOf aliases x)
  | operand => operand

/-- A table of private locals, as it is collected. -/
structure SharesPrivate {V M : Type} (machine : Machine V M) (aliases : AliasTable) : Prop where
  ok : TableOk aliases
  own : ∀ x t, aliases.lookup x = some t → machine.resident x = false

/-- The state after executing the instructions of `path` with shared storage. -/
inductive AliasedReaches {V M : Type} (machine : Machine V M) (aliases : AliasTable)
    (instructions : List IRInstruction) (start : IRState V M) : List Nat → IRState V M → Prop
  | start : AliasedReaches machine aliases instructions start [] start
  | step {path : List Nat} {state state' : IRState V M} :
    AliasedReaches machine aliases instructions start path state →
    aliasedStep machine aliases instructions state = .running state' →
    AliasedReaches machine aliases instructions start (state.pc :: path) state'

section Shared

variable {V M : Type} {machine : Machine V M} {instructions : List IRInstruction}
  {s s' start : IRState V M}

theorem storageOf_of_none {x : String} (h : aliases.lookup x = none) : storageOf aliases x = x := by
  rw [storageOf]
  cases aliases.length with
  | zero => rfl
  | succ depth => rw [resolveAlias, h]

theorem storageOperand_idem (hOk : TableOk aliases) (operand : IROperand) :
    storageOperand aliases (storageOperand aliases operand) = storageOperand aliases operand := by
  cases operand with
  | symbol x =>
    simp only [storageOperand]
    rw [storageOf_of_none (storageOf_not_aliased hOk x)]
  | _ => rfl

/-- Reading through the table is reading the state with shared storage. -/
theorem value_shareStorage (hShares : SharesPrivate machine aliases) (s : IRState V M)
    (operand : IROperand) :
    machine.value (shareStorage machine aliases s) operand =
      machine.value s (storageOperand aliases operand) := by
  cases operand with
  | symbol x =>
    cases hLookup : aliases.lookup x with
    | none =>
      rw [storageOperand, storageOf_of_none hLookup]
      simp [Machine.value, Machine.symbolValue, shareStorage, hLookup]
    | some t =>
      simp [storageOperand, Machine.value, Machine.symbolValue, shareStorage,
        hShares.own x t hLookup, hLookup]
  | _ => rfl

theorem shareStorage_idem (hOk : TableOk aliases) (s : IRState V M) :
    shareStorage machine aliases (shareStorage machine aliases s) =
      shareStorage machine aliases s := by
  have hLocals : (shareStorage machine aliases (shareStorage machine aliases s)).locals =
      (shareStorage machine aliases s).locals := by
    funext x
    cases hLookup : aliases.lookup x with
    | none => simp only [shareStorage, hLookup]
    | some t =>
      simp only [shareStorage, hLookup, Machine.symbolValue, storageOf_not_aliased hOk x]
  rw [shareStorage, shareStorage] at hLocals ⊢
  dsimp only at hLocals ⊢
  rw [hLocals]

theorem aliasedStep_running (h : aliasedStep machine aliases instructions s = .running s') :
    ∃ c, instructions[s.pc]? = some c ∧ ((isElidedCopy aliases c = true ∧ s' = s.next) ∨
        isElidedCopy aliases c = false ∧
          machine.execute instructions (shareStorage machine aliases s) c = .running s') := by
  unfold aliasedStep at h
  cases hc : instructions[s.pc]? with
  | none =>
    rw [hc] at h
    cases h
  | some c =>
    rw [hc] at h
    dsimp only at h
    cases hElided : isElidedCopy aliases c with
    | true =>
      rw [hElided, if_pos rfl] at h
      exact ⟨c, rfl, Or.inl ⟨hElided, (Outcome.running.inj h).symm⟩⟩
    | false =>
      rw [hElided, if_neg Bool.false_ne_true] at h
      exact ⟨c, rfl, Or.inr ⟨hElided, h⟩⟩

theorem isElidedCopy_assign {c : IRInstruction} (h : isElidedCopy aliases c = true) :
    c.op = .assign := by
  unfold isElidedCopy at h
  split at h
  · assumption
  · cases h

theorem aliasedStep_edge (h : aliasedStep machine aliases instructions s = .running s') :
    Edge instructions s.pc s'.pc := by
  obtain ⟨c, hc, ⟨hElided, rfl⟩ | ⟨-, hExec⟩⟩ := aliasedStep_running h
  · have hOp := isElidedCopy_assign hElided
    exact ⟨c, hc, Or.inl ⟨by rw [hOp]; decide, by rw [hOp]; decide, rfl⟩⟩
  · have hAt : instructions[(shareStorage machine aliases s).pc]? = some c := hc
    have hStep : machine.step instructions (shareStorage machine aliases s) = .running s' := by
      rw [step_at hAt, hExec]
    have hEdge : Edge instructions (shareStorage machine aliases s).pc s'.pc := step_edge hStep
    exact hEdge

theorem AliasedReaches.walk (h : AliasedReaches machine aliases instructions start path s)
    (hStart : start.pc = 0) : Walk instructions path s.pc := by
  induction h with
  | start =>
    rw [hStart]
    exact Walk.start
  | step _ hStep ih => exact ih.step (aliasedStep_edge hStep)

/-- What has storage of its own survives along a way that keeps it. -/
theorem AliasedReaches.kept (hShares : SharesPrivate machine aliases) {later earlier : List Nat}
    {p : Nat} (h : AliasedReaches machine aliases instructions start (later ++ p :: earlier) s) :
    ∃ before after, AliasedReaches machine aliases instructions start earlier before ∧
      before.pc = p ∧ aliasedStep machine aliases instructions before = .running after ∧
      ∀ operand, storageOperand aliases operand = operand →
        (∀ q ∈ later, ∀ c, instructions[q]? = some c → Keeps machine.resident c operand) →
        machine.value s operand = machine.value after operand := by
  induction later generalizing s with
  | nil =>
    cases h with
    | step hReach hStep => exact ⟨_, _, hReach, rfl, hStep, fun _ _ _ => rfl⟩
  | cons q later ih =>
    cases h with
    | step hReach hStep =>
      obtain ⟨before, after, hBefore, hPc, hP, hKept⟩ := ih hReach
      refine ⟨before, after, hBefore, hPc, hP, ?_⟩
      intro operand hOwn hAll
      rw [← hKept operand hOwn fun q' hq' => hAll q' (mem_cons_of_mem _ hq')]
      obtain ⟨c, hc, ⟨-, rfl⟩ | ⟨-, hExec⟩⟩ := aliasedStep_running hStep
      · rfl
      · rw [execute_keeps hExec (hAll _ mem_cons_self c hc), value_shareStorage hShares, hOwn]

theorem aliasedRun_succ {n : Nat} {outcome : Outcome V M}
    (h : aliasedRun machine aliases instructions n outcome = .running s) :
    aliasedRun machine aliases instructions (n + 1) outcome =
      aliasedStep machine aliases instructions s := by
  induction n generalizing outcome with
  | zero =>
    cases outcome with
    | running start =>
      cases h
      simp [aliasedRun]
    | returned value start => cases h
    | stuck start => cases h
  | succ n ih =>
    cases outcome with
    | running start => exact ih h
    | returned value start => cases h
    | stuck start => cases h

theorem AliasedReaches.run_eq (h : AliasedReaches machine aliases instructions start path s) :
    aliasedRun machine aliases instructions path.length (.running start) = .running s := by
  induction h with
  | start => rfl
  | step _ hStep ih => rw [length_cons, aliasedRun_succ ih, hStep]

theorem collected_shares (hResident : ∀ x, machine.resident x = context.resident x) :
    SharesPrivate machine (collectSymbolAliases context function) :=
  ⟨(collectSymbolAliases_ok context function).1, fun _ _ => collected_private hResident⟩

end Shared

/-- Everything is a local of one word, and `p` is a parameter. -/
def wordContext : AliasContext where
  isLocal x := x != "p"
  hasSlot _ := true
  addressTaken _ := false
  gpPromotable _ := true
  floatMarked _ := false
  scalarAccessible _ := true
  local_hasSlot _ _ := rfl

/-- `t = p + 1; x = t; y = x + t; return y`. -/
def sharedSum : IRFunction :=
  { name := "shared_sum"
    parameterNames := ["p"]
    instructions :=
      [{ op := .binary, dest := .symbol "t", lhs := .symbol "p", rhs := .int 1, text := some "+" },
       { op := .assign, dest := .symbol "x", lhs := .symbol "t" },
       { op := .binary, dest := .symbol "y", lhs := .symbol "x", rhs := .symbol "t",
         text := some "+" },
       { op := .return_, lhs := .symbol "y" }] }

def enteredWith (p : BitVec 64) : IRState (BitVec 64) (String → BitVec 64) :=
  { pc := 0
    temps := fun _ => none
    locals := fun x => if x = "p" then some p else none
    memory := fun _ => 0
    trace := [] }

theorem sharedSum_walk {p : Nat} (h : Walk sharedSum.instructions path p) :
    path = (List.range p).reverse := by
  induction h with
  | start => rfl
  | step _ hEdge ih =>
    obtain ⟨c, hc, ⟨-, -, rfl⟩ | ⟨hOp, -⟩⟩ := hEdge
    · rw [ih, range_succ, reverse_append]
      rfl
    · have hNone : ∀ c ∈ sharedSum.instructions,
          ¬(c.op = .jump ∨ c.op = .branchZero ∨ c.op = .branchEq) := by decide
      exact absurd hOp (hNone c (mem_of_getElem? hc))

theorem sharedSum_safe (resident : String → Bool) :
    AliasSafe resident sharedSum.instructions [("x", "t")] where
  current := by
    intro p c x a b hc hElided hRead hLink path hWalk
    obtain ⟨rfl, rfl⟩ : a = "x" ∧ b = "t" := by simpa using hLink.mem
    have hX : x = "x" := by
      cases hLink with
      | here => rfl
      | later hLookup hRest =>
        have hMem := mem_of_lookup_eq hLookup
        simp at hMem
        exact hMem.1
    -- the sum is the only instruction that reads it, and the copy stands right in front
    have hAt : p = 2 := by
      have hp : p < 4 := (List.getElem_of_getElem? hc).1
      subst hX
      have hOnly : ∀ p < 4, ∀ c ∈ sharedSum.instructions[p]?, IROperand.symbol "x" ∈ c.reads →
          p = 2 := by decide
      exact hOnly p hp c hc hRead
    subst hAt
    rw [sharedSum_walk hWalk]
    exact ⟨[], 1, [0], _, rfl, rfl, rfl, rfl, rfl, rfl, fun q hq => absurd hq not_mem_nil⟩
  assembly := by decide

theorem aliases_sound_sharedSum : collectSymbolAliases wordContext sharedSum = [("x", "t")] ∧
      AliasesSound (wordMachine wordContext.resident) wordContext sharedSum (enteredWith 4) := by
  have hTable : collectSymbolAliases wordContext sharedSum = [("x", "t")] := by decide
  refine ⟨hTable, aliases_sound (fun _ => rfl) ?_ rfl⟩
  exact sharedSum_safe _

/-- `x = p; p = 5; return x`, with a parameter `p`. -/
def savedParameter : IRFunction :=
  { name := "saved_parameter"
    parameterNames := ["p"]
    instructions :=
      [{ op := .assign, dest := .symbol "x", lhs := .symbol "p" },
       { op := .assign, dest := .symbol "p", lhs := .int 5 },
       { op := .return_, lhs := .symbol "x" }] }

/-- The parameter has one write in the text and one at the entry: `x` gets its storage, and the
function returns 5 instead of what it was called with. -/
theorem not_aliasesSound_savedParameter :
    ¬ AliasesSound (wordMachine wordContext.resident) wordContext savedParameter (enteredWith 3) := by
  intro h
  have hRun : ((wordMachine wordContext.resident).run savedParameter.instructions 3
      (.running (enteredWith 3))).value = some 3 := by decide
  have hShared : (aliasedRun (wordMachine wordContext.resident)
      (collectSymbolAliases wordContext savedParameter) savedParameter.instructions 3
      (.running (enteredWith 3))).value = some 5 := by decide
  rcases h.runs 3 with ⟨state, hStuck⟩ | hRelated
  · rw [hStuck] at hRun
    cases hRun
  · generalize aliasedRun (wordMachine wordContext.resident)
      (collectSymbolAliases wordContext savedParameter) savedParameter.instructions 3
      (.running (enteredWith 3)) = shared at hShared hRelated
    generalize (wordMachine wordContext.resident).run savedParameter.instructions 3
      (.running (enteredWith 3)) = separate at hRun hRelated
    cases hRelated with
    | returned _ =>
      rw [Outcome.value] at hRun hShared
      rw [hRun] at hShared
      exact absurd hShared (by decide)
    | running _ => cases hRun
    | stuck => cases hRun

end Mettle.Codegen
