import Mettle.IR.Semantics

/-!
# Mettle — regions of code

A tool for passes that rewrite a loop. A *region* is an interval of places: `Inside` says that a
run has stayed in it so far. A run leaves a region in at most one state (`Inside.split`), so what a
piece of a region does can be put in front of what the rest of it does.
-/

namespace Mettle.IR

variable {V M : Type} {machine : Machine V M}

/-! ## Loads -/

def Machine.loadsAt (machine : Machine V M) (state : IRState V M) (instruction : IRInstruction) :
    List (V × V) :=
  if instruction.op = .load then
    match machine.value state instruction.lhs, machine.value state instruction.rhs with
    | some address, some size => [(address, size)]
    | _, _ => []
  else []

-- ---
-- Regions
-- ---

/-- `n` steps, all from places between `lo` and `hi`, with the loads they perform. -/
inductive Inside (machine : Machine V M) (code : List IRInstruction) (lo hi : Nat) :
    Nat → IRState V M → List (V × V) → IRState V M → Prop
  | refl (state : IRState V M) : Inside machine code lo hi 0 state [] state
  | step {n : Nat} {state next final : IRState V M} {loads : List (V × V)}
      {instruction : IRInstruction} (hAt : code[state.pc]? = some instruction)
      (hLo : lo ≤ state.pc) (hHi : state.pc < hi)
      (hStep : machine.execute code state instruction = .running next)
      (hRest : Inside machine code lo hi n next loads final) :
      Inside machine code lo hi (n + 1) state (machine.loadsAt state instruction ++ loads) final

variable {place : Nat} {instruction : IRInstruction} {code rest : List IRInstruction}

section

variable {lo hi : Nat}

theorem Inside.trans {n m : Nat} {s t u : IRState V M} {ls ls' : List (V × V)}
    (h : Inside machine code lo hi n s ls t) (h' : Inside machine code lo hi m t ls' u) :
    Inside machine code lo hi (n + m) s (ls ++ ls') u := by
  induction h with
  | refl state =>
    rw [Nat.zero_add, List.nil_append]
    exact h'
  | step hAt hLo hHi hStep _ ih =>
    rw [Nat.succ_add, List.append_assoc]
    exact .step hAt hLo hHi hStep (ih h')

/-- **One way out.** -/
theorem Inside.split {k n : Nat} {s t f : IRState V M} {ls ls' : List (V × V)}
    (h : Inside machine code lo hi k s ls t) (h' : Inside machine code lo hi n s ls' f)
    (hOut : ¬ (lo ≤ f.pc ∧ f.pc < hi)) :
    ∃ m ls'', n = k + m ∧ ls' = ls ++ ls'' ∧ Inside machine code lo hi m t ls'' f := by
  induction h generalizing n ls' with
  | refl state => exact ⟨n, ls', (Nat.zero_add n).symm, rfl, h'⟩
  | step hAt hLo hHi hStep _ ih =>
    cases h' with
    | refl => exact absurd ⟨hLo, hHi⟩ hOut
    | step hAt' _ _ hStep' hRest =>
      obtain rfl := Option.some.inj (hAt.symm.trans hAt')
      obtain rfl := Outcome.running.inj (hStep.symm.trans hStep')
      obtain ⟨m, ls'', rfl, rfl, hInside⟩ := ih hRest
      exact ⟨m, ls'', by omega, by rw [List.append_assoc], hInside⟩

-- ---
-- Code at a place
-- ---

/-- The instructions stand in the code from `place` on. -/
def BlockAt (code : List IRInstruction) (place : Nat) (instructions : List IRInstruction) : Prop :=
  instructions <+: code.drop place

theorem BlockAt.head
    (h : BlockAt code place (instruction :: rest)) : code[place]? = some instruction := by
  obtain ⟨tail, hTail⟩ := h
  have hGet : (code.drop place)[0]? = some instruction := by rw [← hTail]; rfl
  rwa [List.getElem?_drop, Nat.add_zero] at hGet

section

variable {first second : List IRInstruction} (h : BlockAt code place (first ++ second))
include h

theorem BlockAt.right : BlockAt code (place + first.length) second := by
  obtain ⟨tail, hTail⟩ := h
  refine ⟨tail, ?_⟩
  rw [← List.drop_drop, ← hTail, List.append_assoc, List.drop_left]

theorem BlockAt.left : BlockAt code place first :=
  (List.prefix_append first second).trans h

end

theorem BlockAt.tail
    (h : BlockAt code place (instruction :: rest)) : BlockAt code (place + 1) rest := by
  have hSplit : BlockAt code place ([instruction] ++ rest) := h
  exact hSplit.right

theorem blockAt_append (front instructions back : List IRInstruction) :
    BlockAt (front ++ instructions ++ back) front.length instructions := by
  refine ⟨back, ?_⟩
  rw [List.append_assoc, List.drop_left]

-- ---
-- Ways through a region
-- ---

/-- A run gets from one state to another without leaving the region in between. -/
def Through (machine : Machine V M) (code : List IRInstruction) (lo hi : Nat)
    (s t : IRState V M) : Prop :=
  ∃ n loads, Inside machine code lo hi n s loads t

section Through

variable {s t u : IRState V M} {c : IRInstruction}

theorem Through.refl (s : IRState V M) : Through machine code lo hi s s := ⟨0, [], .refl s⟩

theorem Through.trans (h : Through machine code lo hi s t) (h' : Through machine code lo hi t u) :
    Through machine code lo hi s u := by
  obtain ⟨n, loads, hLeft⟩ := h
  obtain ⟨m, loads', hRight⟩ := h'
  exact ⟨n + m, loads ++ loads', hLeft.trans hRight⟩

theorem Through.one (hAt : code[s.pc]? = some c) (hLo : lo ≤ s.pc) (hHi : s.pc < hi)
    (hStep : machine.execute code s c = .running t) : Through machine code lo hi s t :=
  ⟨1, _, .step hAt hLo hHi hStep (.refl t)⟩

theorem Through.mono {lo' hi' : Nat} (h : Through machine code lo hi s t) (hLo : lo' ≤ lo)
    (hHi : hi ≤ hi') : Through machine code lo' hi' s t := by
  obtain ⟨n, loads, hInside⟩ := h
  refine ⟨n, loads, ?_⟩
  induction hInside with
  | refl state => exact .refl state
  | step hAt hLo' hHi' hStep _ ih => exact .step hAt (by omega) (by omega) hStep ih

theorem Through.unique (h : Through machine code lo hi s t) (h' : Through machine code lo hi s u)
    (hOut : ¬ (lo ≤ t.pc ∧ t.pc < hi)) (hOut' : ¬ (lo ≤ u.pc ∧ u.pc < hi)) : t = u := by
  obtain ⟨n, loads, hLeft⟩ := h
  obtain ⟨m, loads', hRight⟩ := h'
  obtain ⟨k, rest, -, -, hRest⟩ := hLeft.split hRight hOut'
  cases hRest with
  | refl => rfl
  | step _ hLo hHi => exact absurd ⟨hLo, hHi⟩ hOut

theorem through_idle {k : Nat} (hLo : lo ≤ s.pc) (hLe : s.pc ≤ k) (hHi : k ≤ hi)
    (hIdle : ∀ q, s.pc ≤ q → q < k → ∃ c, code[q]? = some c ∧ (c.op = .nop ∨ c.op = .label)) :
    Through machine code lo hi s { s with pc := k } := by
  induction hLe with
  | refl => exact .refl s
  | @step k hLe ih =>
    have hBehind : s.pc ≤ k := hLe
    obtain ⟨c, hc, hOp⟩ := hIdle k hBehind (by omega)
    refine (ih (by omega) fun q hq hLt => hIdle q hq (by omega)).trans ?_
    refine Through.one hc (by dsimp only; omega) (by dsimp only; omega) ?_
    unfold Machine.execute
    rcases hOp with hOp | hOp <;> rw [hOp] <;> rfl

def IROpcode.isPure : IROpcode → Bool
  | .assign | .addressOf | .binary | .unary | .cast => true
  | _ => false

theorem execute_pure (hOp : c.op.isPure = true) :
    machine.execute code s c = machine.finish s c.dest (machine.compute s c) := by
  unfold Machine.execute
  cases hCase : c.op <;> rw [hCase] at hOp <;> first | rfl | exact absurd hOp (by decide)

theorem through_pure (hAt : code[s.pc]? = some c) (hLo : lo ≤ s.pc) (hHi : s.pc < hi)
    (hOp : c.op.isPure = true) {v : V} (hValue : machine.compute s c = some v) :
    Through machine code lo hi s (machine.write s c.dest v).next := by
  refine Through.one hAt hLo hHi ?_
  rw [execute_pure hOp, hValue]
  rfl

end Through

end

-- ---
-- States that agree on their symbols
-- ---

/-- Two states differ in their temps and in where they are, at most. -/
structure SameSymbols (e s : IRState V M) : Prop where
  locals : e.locals = s.locals
  memory : e.memory = s.memory
  trace : e.trace = s.trace

section SameSymbols

variable {e s r : IRState V M}

theorem SameSymbols.refl (s : IRState V M) : SameSymbols s s := ⟨rfl, rfl, rfl⟩

theorem SameSymbols.symm (h : SameSymbols e s) : SameSymbols s e :=
  ⟨h.locals.symm, h.memory.symm, h.trace.symm⟩

theorem SameSymbols.trans (h : SameSymbols e s) (h' : SameSymbols s r) : SameSymbols e r :=
  ⟨h.locals.trans h'.locals, h.memory.trans h'.memory, h.trace.trans h'.trace⟩

theorem SameSymbols.value (h : SameSymbols e s) (x : String) :
    machine.value e (.symbol x) = machine.value s (.symbol x) := by
  simp only [Machine.value, Machine.symbolValue]
  rw [h.locals, h.memory]

theorem SameSymbols.write_temp (s : IRState V M) (t : String) (v : V) :
    SameSymbols (machine.write s (.temp t) v).next s := ⟨rfl, rfl, rfl⟩

theorem SameSymbols.write_symbol (h : SameSymbols e s) (x : String) (v : V) :
    SameSymbols (machine.write e (.symbol x) v) (machine.write s (.symbol x) v) := by
  unfold Machine.write
  dsimp only
  split
  · exact ⟨h.locals, by rw [h.memory], h.trace⟩
  · exact ⟨by rw [h.locals], h.memory, h.trace⟩

theorem SameSymbols.next (h : SameSymbols e s) : SameSymbols e.next s :=
  ⟨h.locals, h.memory, h.trace⟩

end SameSymbols

-- ---
-- Straight code
-- ---

/-- Control comes from `s` to `place`, where the symbols are those of `base`. -/
structure Comes (machine : Machine V M) (code : List IRInstruction) (lo hi : Nat)
    (s t : IRState V M) (place : Nat) (base : IRState V M) : Prop where
  through : Through machine code lo hi s t
  pc : t.pc = place
  same : SameSymbols t base

section Comes

variable {lo hi : Nat} {s t base : IRState V M} {c : IRInstruction} {name : String} {v : V}

theorem Comes.refl (s : IRState V M) : Comes machine code lo hi s s s.pc s :=
  ⟨.refl s, rfl, .refl s⟩

variable (h : Comes machine code lo hi s t place base) (hAt : code[place]? = some c)
  (hLo : lo ≤ place) (hHi : place < hi)
include h hAt hLo hHi

theorem Comes.temp (hOp : c.op.isPure = true) (hDest : c.dest = .temp name)
    (hValue : machine.compute t c = some v) : ∃ r,
      Comes machine code lo hi s r (place + 1) base ∧ machine.value r (.temp name) = some v := by
  have hStep := through_pure (h.pc.symm ▸ hAt) (h.pc.symm ▸ hLo) (h.pc.symm ▸ hHi) hOp hValue
  rw [hDest] at hStep
  refine ⟨_, ⟨h.through.trans hStep, ?_, (SameSymbols.write_temp t name v).trans h.same⟩, ?_⟩
  · rw [IRState.next, Machine.write_pc, h.pc]
  · rw [machine.value_next]
    exact machine.value_write_self (Or.inl ⟨_, rfl⟩)

theorem Comes.symbol (hOp : c.op.isPure = true) (hDest : c.dest = .symbol name)
    (hValue : machine.compute t c = some v) : ∃ r,
      Comes machine code lo hi s r (place + 1) (machine.write base (.symbol name) v) := by
  have hStep := through_pure (h.pc.symm ▸ hAt) (h.pc.symm ▸ hLo) (h.pc.symm ▸ hHi) hOp hValue
  rw [hDest] at hStep
  refine ⟨_, h.through.trans hStep, ?_, (h.same.write_symbol name v).next⟩
  rw [IRState.next, Machine.write_pc, h.pc]

end Comes

end Mettle.IR
