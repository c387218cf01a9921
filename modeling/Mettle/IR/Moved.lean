import Mettle.IR.FlowCleanup

/-!
# Mettle — code that stands somewhere else

Passes that insert or remove instructions move the rest of the function. An instruction that
was moved does what it did, but for the program counter and the places of the labels.
-/

namespace Mettle.IR

variable {V M : Type} {machine : Machine V M}

/-- What an instruction does, had it stood at `place`. -/
def Outcome.movedTo (place : Nat) : Outcome V M → Outcome V M
  | .running state => .running { state with pc := place + 1 }
  | .returned value state => .returned value { state with pc := place }
  | .stuck state => .stuck { state with pc := place }

variable (state : IRState V M)

theorem Machine.write_pc_set (place : Nat) (dest : IROperand) (v : V) :
    machine.write { state with pc := place } dest v =
      { machine.write state dest v with pc := place } := by
  cases dest with
  | symbol name =>
    rw [Machine.write, Machine.write]
    split <;> rfl
  | _ => rfl

theorem value_pc_set (place : Nat) :
    machine.value { state with pc := place } = machine.value state := by
  funext operand
  exact machine.value_pc state place operand

theorem deliver_moved (place : Nat) (dest : IROperand)
    (result : Option (V × M × List (CallEvent V))) :
    machine.deliver { state with pc := place } dest result =
      (machine.deliver state dest result).movedTo place := by
  rcases result with _ | ⟨v, memory, calls⟩
  · rfl
  · rw [Machine.deliver, Machine.deliver,
      show IRState.behind { state with pc := place } memory calls =
        { state.behind memory calls with pc := place } from rfl, machine.write_pc_set]
    rfl

theorem executeKernel_moved (place : Nat) (c : IRInstruction) :
    machine.executeKernel { state with pc := place } c =
      (machine.executeKernel state c).movedTo place := by
  unfold Machine.executeKernel
  rw [value_pc_set]
  dsimp only
  split
  · rfl
  · rename_i v w memory _
    have hMemory : (if c.op.kernelWritesMemory then
        ({ state with pc := place, memory := memory } : IRState V M) else { state with pc := place }) =
        { (if c.op.kernelWritesMemory then { state with memory } else state) with pc := place } := by
      split <;> rfl
    rw [hMemory]
    generalize (if c.op.kernelWritesMemory then { state with memory } else state) = base
    rw [machine.write_pc_set base place c.dest v]
    split
    · rw [machine.write_pc_set (machine.write base c.dest v) place]
      rfl
    · rfl

/-- **What does not jump does the same at another place.** -/
theorem execute_moved {c : IRInstruction} (hJump : c.mayJump = false)
    (code code' : List IRInstruction) (state : IRState V M) (place : Nat) :
    machine.execute code' { state with pc := place } c =
      (machine.execute code state c).movedTo place := by
  by_cases hProduces : c.op.produces = true
  · have hSame : machine.produce { state with pc := place } c = machine.produce state c := by
      rw [Machine.produce, Machine.produce, compute_congr (machine.value_pc _ _ _)
        (machine.value_pc _ _ _), value_pc_set]
    rw [execute_produces hProduces, execute_produces hProduces, hSame, deliver_moved]
  by_cases hKernel : c.op.isKernel = true
  · rw [execute_kernel hKernel, execute_kernel hKernel, executeKernel_moved]
  unfold Machine.execute
  rw [value_pc_set]
  cases hOp : c.op <;> rw [hOp] at hProduces hKernel <;> dsimp only <;>
    first
    | rfl
    | exact absurd rfl hKernel
    | exact absurd rfl hProduces
    | simp [IRInstruction.mayJump, IRInstruction.isBranch, hOp] at hJump
  case store =>
    split
    · split <;> rfl
    · rfl
  case rotateAdd =>
    split
    · split
      · rfl
      · rename_i sum _
        generalize hFirst : machine.write state c.dest sum = first
        rw [machine.write_pc_set state place c.dest sum, hFirst, value_pc_set first place,
          machine.write_pc_set first place c.lhs, machine.write_pc_set _ place c.rhs]
        rfl
    · rfl
  case return_ =>
    split
    · rfl
    · split <;> rfl
  case inlineAsm =>
    split
    · rfl
    · split <;> rfl

theorem execute_moved_cases (c : IRInstruction) (code code' : List IRInstruction)
    (state : IRState V M) (place : Nat) :
    ((∀ next, machine.execute code state c = .running next → next.pc = state.pc + 1) ∧
      machine.execute code' { state with pc := place } c =
        (machine.execute code state c).movedTo place) ∨
    (c.mayJump = true ∧ machine.execute code state c = jumpTo code state c.text ∧
      machine.execute code' { state with pc := place } c =
        jumpTo code' { state with pc := place } c.text) := by
  cases hJump : c.mayJump with
  | false =>
    left
    refine ⟨?_, execute_moved hJump code code' state place⟩
    intro next hNext
    rcases execute_pc hNext with hPc | ⟨hOp, -⟩
    · exact hPc
    · rw [mayJump_iff.mpr hOp] at hJump
      cases hJump
  | true =>
    have hStuck : ∀ next, Outcome.stuck state = .running next → next.pc = state.pc + 1 := nofun
    have hNext : ∀ next, Outcome.running state.next = .running next → next.pc = state.pc + 1 := by
      intro next h
      rw [← Outcome.running.inj h]
      rfl
    have hLhs := machine.value_pc state place c.lhs
    have hRhs := machine.value_pc state place c.rhs
    unfold Machine.execute
    rcases mayJump_iff.mp hJump with hOp | hOp | hOp <;> rw [hOp] <;> dsimp only
    · exact Or.inr ⟨rfl, rfl, rfl⟩
    · rw [hLhs]
      split
      · exact Or.inl ⟨hStuck, rfl⟩
      · split
        · exact Or.inr ⟨rfl, rfl, rfl⟩
        · exact Or.inl ⟨hNext, rfl⟩
    · rw [hLhs, hRhs]
      split
      · split
        · exact Or.inr ⟨rfl, rfl, rfl⟩
        · exact Or.inl ⟨hNext, rfl⟩
      · exact Or.inl ⟨hStuck, rfl⟩

theorem labelIndex_iff {code : List IRInstruction} {name : String} {k : Nat} :
    labelIndex code name = some k ↔ (∃ c, code[k]? = some c ∧ c.isLabel name = true) ∧
        ∀ q c, q < k → code[q]? = some c → c.isLabel name = false := by
  unfold labelIndex
  rw [List.findIdx?_eq_some_iff_getElem]
  constructor
  · rintro ⟨hk, hAt, hBefore⟩
    refine ⟨⟨code[k], List.getElem?_eq_getElem hk, hAt⟩, ?_⟩
    intro q c hLt hc
    obtain ⟨hq, rfl⟩ := List.getElem_of_getElem? hc
    exact Bool.eq_false_iff.mpr (hBefore q hLt)
  · rintro ⟨⟨c, hc, hIs⟩, hBefore⟩
    obtain ⟨hk, rfl⟩ := List.getElem_of_getElem? hc
    refine ⟨hk, hIs, ?_⟩
    intro q hLt
    have hFalse := hBefore q _ hLt (List.getElem?_eq_getElem (by omega))
    rw [IRInstruction.isLabel] at hFalse
    rw [hFalse]
    exact Bool.false_ne_true

end Mettle.IR
