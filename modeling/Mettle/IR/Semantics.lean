import Mettle.IR.Syntax

/-!
# Mettle — execution of an IR function

What the IR means, as a deterministic machine over an abstract set of values and
memories. `Machine` collects what the code generators and the run-time environment
decide: the arithmetic, the memory accesses, and what a called function does. A symbol is
either private to the function or *resident* in memory (a global, or a local whose
address is taken); memory operations and calls can change resident symbols only.
Reading a temp or a private symbol that was never written is stuck.

A value is a word with the float width that the code generator knows of it. It does not
always arrive as it left: a resident symbol keeps of a stored word what a load at the
symbol's declared type gives back (`narrow`), a temp that is copied into a promoted symbol
of four bytes is loaded with four bytes (`copied`), and a float that is assigned or
returned is brought to the width of the instruction (`convert`).

`Machine.step` executes one instruction and `Machine.run` a number of them; a run ends
when it returns or is stuck, and carries the trace of calls. The second half of the
module says once what a step can change (`execute_keeps`) and where control goes
(`execute_pc`).
-/

namespace Mettle.IR

/-- A call in the trace: the callee (by name, or by the value it was called through) with
its arguments. -/
inductive CallEvent (V : Type)
  | direct (callee : String) (arguments : List V)
  | indirect (callee : V) (arguments : List V)
  deriving DecidableEq

/-- The environment of an IR function. -/
structure Machine (V M : Type) where
  int : Int → V
  float : BitVec 64 → Nat → V
  string : String → V
  label : String → V
  isZero : V → Bool
  equal : V → V → Bool
  -- arithmetic at a float width: 0 for integers, 32 or 64
  binary : String → Nat → V → V → Option V
  -- the string `+` of an instruction that still has its expression
  concat : V → V → Option V
  unary : String → Nat → V → Option V
  cast : String → Nat → V → Option V
  addressOf : String → V
  load : V → V → Nat → M → Option V
  store : V → V → V → Nat → M → Option M
  call : String → List V → M → Option (V × M)
  callIndirect : V → List V → M → Option (V × M)
  new : String → V → M → Option (V × M)
  inlineAsm : String → (String → Option V) → M → Option ((String → Option V) × M)
  -- a vector kernel: the new value of its destination, of its first argument, the memory
  kernel : IROpcode → List (Option V) → M → Option (V × V × M)
  -- a float of another width at this one, every other value as it is
  convert : Nat → V → V
  -- what a private symbol gets of a temp that is copied into it
  copied : String → V → V
  resident : String → Bool
  getResident : M → String → V
  setResident : M → String → V → M
  -- what a load of a resident symbol gives of the value that was stored
  narrow : String → V → V
  get_set_self : ∀ m x v, getResident (setResident m x v) x = narrow x v
  narrow_get : ∀ m x, narrow x (getResident m x) = getResident m x
  get_set_of_ne : ∀ m x y v, x ≠ y → getResident (setResident m x v) y = getResident m y
  new_resident : ∀ type size m v m', new type size m = some (v, m') →
    ∀ x, getResident m' x = getResident m x
  binary_comm : ∀ op width a b, irBinaryOpIsCommutative op = true →
    binary op width a b = binary op width b a

structure IRState (V M : Type) where
  pc : Nat
  temps : String → Option V
  locals : String → Option V
  memory : M
  trace : List (CallEvent V)

/-- Where a run stands: still running, returned, or stuck. -/
inductive Outcome (V M : Type)
  | running (state : IRState V M)
  | returned (value : Option V) (state : IRState V M)
  | stuck (state : IRState V M)

variable {V M : Type} (machine : Machine V M)

def Machine.symbolValue (state : IRState V M) (name : String) : Option V :=
  if machine.resident name then some (machine.getResident state.memory name)
  else state.locals name

def Machine.value (state : IRState V M) : IROperand → Option V
  | .none => none
  | .temp name => state.temps name
  | .symbol name => machine.symbolValue state name
  | .int intValue => some (machine.int intValue)
  | .float floatValue floatBits => some (machine.float floatValue floatBits)
  | .string name => some (machine.string name)
  | .label name => some (machine.label name)

def Machine.write (state : IRState V M) (dest : IROperand) (v : V) : IRState V M :=
  match dest with
  | .temp name => { state with temps := Function.update state.temps name (some v) }
  | .symbol name =>
    if machine.resident name then
      { state with memory := machine.setResident state.memory name v }
    else { state with locals := Function.update state.locals name (some v) }
  | _ => state

/-- What a place holds once `v` is stored in it. -/
def Machine.kept (dest : IROperand) (v : V) : V :=
  match dest with
  | .symbol name => if machine.resident name then machine.narrow name v else v
  | _ => v

def Machine.converted (instruction : IRInstruction) (v : V) : V :=
  if instruction.isFloat ∧ instruction.floatBits ≠ 0 then
    machine.convert instruction.floatBits v
  else v

/-- What an assignment delivers of its source: a float is converted, and a promoted symbol
loads a temp at its own width. -/
def Machine.moved (instruction : IRInstruction) (v : V) : V :=
  if instruction.isFloat then machine.converted instruction v
  else
    match instruction.lhs, instruction.dest with
    | .temp _, .symbol name => if machine.resident name then v else machine.copied name v
    | _, _ => v

/-- Where no float changes its width and every promoted symbol is eight bytes wide, a value
arrives as it is. -/
theorem Machine.moved_id {machine : Machine V M} (hConvert : ∀ width v, machine.convert width v = v)
    (hCopied : ∀ name v, machine.copied name v = v) (instruction : IRInstruction) (v : V) :
    machine.moved instruction v = v := by
  unfold Machine.moved Machine.converted
  split
  · rw [hConvert, ite_self]
  · split
    · rw [hCopied, ite_self]
    · rfl

def IRState.next (state : IRState V M) : IRState V M := { state with pc := state.pc + 1 }

/-- The first label of the name. -/
def labelIndex (instructions : List IRInstruction) (name : String) : Option Nat :=
  instructions.findIdx? fun instruction =>
    instruction.op == .label && instruction.text == some name

def jumpTo (instructions : List IRInstruction) (state : IRState V M) : Option String → Outcome V M
  | none => .stuck state
  | some name =>
    match labelIndex instructions name with
    | none => .stuck state
    | some index => .running { state with pc := index }

def IROpcode.kernelWritesMemory : IROpcode → Bool
  | .memcpyInline | .simdMatmulN32 | .simdInsertionSortI32 | .simdScaleI32 | .simdClampI32
  | .simdReverseCopyI32 | .prefixSumI32 => true
  | _ => false

def Machine.finish (state : IRState V M) (dest : IROperand) : Option V → Outcome V M
  | none => .stuck state
  | some v => .running (machine.write state dest v).next

def Machine.finishCall (state : IRState V M) (dest : IROperand) (event : List (CallEvent V)) :
    Option (V × M) → Outcome V M
  | none => .stuck state
  | some (v, memory) =>
    .running (machine.write { state with memory, trace := state.trace ++ event } dest v).next

def Machine.operate (instruction : IRInstruction) (op : String) (a b : V) : Option V :=
  if instruction.astRef ∧ op = "+" then machine.concat a b
  else machine.binary op instruction.floatWidth a b

def Machine.compute (state : IRState V M) (instruction : IRInstruction) : Option V :=
  match instruction.op with
  | .assign => (machine.value state instruction.lhs).map (machine.moved instruction)
  | .addressOf =>
    match instruction.lhs with
    | .symbol name => some (machine.addressOf name)
    | _ => none
  | .binary =>
    match instruction.text, machine.value state instruction.lhs,
        machine.value state instruction.rhs with
    | some op, some a, some b => machine.operate instruction op a b
    | _, _, _ => none
  | .unary =>
    match instruction.text, machine.value state instruction.lhs with
    | some op, some a => machine.unary op instruction.floatWidth a
    | _, _ => none
  | .cast =>
    match instruction.text, machine.value state instruction.lhs with
    | some type, some a => machine.cast type instruction.floatWidth a
    | _, _ => none
  | _ => none

def Machine.executeKernel (state : IRState V M) (instruction : IRInstruction) : Outcome V M :=
  match machine.kernel instruction.op ((instruction.dest :: instruction.lhs :: instruction.rhs ::
      instruction.arguments).map (machine.value state)) state.memory with
  | none => .stuck state
  | some (v, w, memory) =>
    let state := if instruction.op.kernelWritesMemory then { state with memory } else state
    let state := machine.write state instruction.dest v
    let state :=
      if instruction.op = .simdMinmaxI32 then
        machine.write state (instruction.arguments.headD .none) w
      else state
    .running state.next

def Machine.execute (instructions : List IRInstruction) (state : IRState V M)
    (instruction : IRInstruction) : Outcome V M :=
  match instruction.op with
  | .nop | .label | .declareLocal => .running state.next
  | .jump => jumpTo instructions state instruction.text
  | .branchZero =>
    match machine.value state instruction.lhs with
    | none => .stuck state
    | some v =>
      if machine.isZero v then jumpTo instructions state instruction.text
      else .running state.next
  | .branchEq =>
    match machine.value state instruction.lhs, machine.value state instruction.rhs with
    | some a, some b =>
      if machine.equal a b then jumpTo instructions state instruction.text
      else .running state.next
    | _, _ => .stuck state
  | .assign | .addressOf | .binary | .unary | .cast =>
    machine.finish state instruction.dest (machine.compute state instruction)
  | .load =>
    match machine.value state instruction.lhs, machine.value state instruction.rhs with
    | some address, some size =>
      machine.finish state instruction.dest
        (machine.load address size instruction.floatWidth state.memory)
    | _, _ => .stuck state
  | .store =>
    match machine.value state instruction.dest, machine.value state instruction.lhs,
        machine.value state instruction.rhs with
    | some address, some v, some size =>
      match machine.store address v size instruction.floatWidth state.memory with
      | none => .stuck state
      | some memory => .running { state with memory }.next
    | _, _, _ => .stuck state
  | .rotateAdd =>
    -- next = a + b; a = b; b = next: `b` is loaded again once `next` is stored
    match machine.value state instruction.lhs, machine.value state instruction.rhs with
    | some a, some b =>
      match machine.binary "+" 0 a b with
      | none => .stuck state
      | some sum =>
        let state := machine.write state instruction.dest sum
        let state :=
          machine.write state instruction.lhs ((machine.value state instruction.rhs).getD b)
        .running (machine.write state instruction.rhs sum).next
    | _, _ => .stuck state
  | .call =>
    match instruction.text, instruction.arguments.mapM (machine.value state) with
    | some callee, some arguments =>
      machine.finishCall state instruction.dest [.direct callee arguments]
        (machine.call callee arguments state.memory)
    | _, _ => .stuck state
  | .callIndirect =>
    match machine.value state instruction.lhs, instruction.arguments.mapM (machine.value state) with
    | some callee, some arguments =>
      machine.finishCall state instruction.dest [.indirect callee arguments]
        (machine.callIndirect callee arguments state.memory)
    | _, _ => .stuck state
  | .new =>
    match instruction.text, machine.value state instruction.rhs with
    | some type, some size =>
      machine.finishCall state instruction.dest [] (machine.new type size state.memory)
    | _, _ => .stuck state
  | .return_ =>
    match instruction.lhs with
    | .none => .returned none state
    | operand =>
      match machine.value state operand with
      | none => .stuck state
      | some v => .returned (some (machine.converted instruction v)) state
  | .inlineAsm =>
    match instruction.text with
    | none => .stuck state
    | some code =>
      match machine.inlineAsm code state.locals state.memory with
      | none => .stuck state
      | some (locals, memory) => .running { state with locals, memory }.next
  | .countWordStarts | .memcpyInline | .simdSumI32 | .simdMatmulN32 | .simdInsertionSortI32
  | .simdDotI32 | .simdScaleI32 | .simdClampI32 | .simdReverseCopyI32 | .lowerBoundI32
  | .prefixSumI32 | .simdMinmaxI32 => machine.executeKernel state instruction

def Machine.step (instructions : List IRInstruction) (state : IRState V M) : Outcome V M :=
  match instructions[state.pc]? with
  | none => .returned none state
  | some instruction => machine.execute instructions state instruction

/-- At most `n` steps. -/
def Machine.run (instructions : List IRInstruction) : Nat → Outcome V M → Outcome V M
  | n + 1, .running state => Machine.run instructions n (machine.step instructions state)
  | _, outcome => outcome

def Outcome.value : Outcome V M → Option V
  | .returned value _ => value
  | _ => none

def Outcome.trace : Outcome V M → List (CallEvent V)
  | .running state => state.trace
  | .returned _ state => state.trace
  | .stuck state => state.trace

/-! ### A concrete environment -/

def wordBinary (op : String) (a b : BitVec 64) : Option (BitVec 64) :=
  if op = "+" then some (a + b)
  else if op = "-" then some (a - b)
  else if op = "*" then some (a * b)
  else if op = "&" then some (a &&& b)
  else if op = "|" then some (a ||| b)
  else if op = "^" then some (a ^^^ b)
  else if op = "<<" then some (a <<< b.toNat)
  else if op = "==" then some (if a = b then 1 else 0)
  else if op = "!=" then some (if a = b then 0 else 1)
  else none

theorem wordBinary_comm {op : String} (h : irBinaryOpIsCommutative op = true) (a b : BitVec 64) :
    wordBinary op a b = wordBinary op b a := by
  simp only [irBinaryOpIsCommutative, Bool.or_eq_true, beq_iff_eq] at h
  rcases h with (((((rfl | rfl) | rfl) | rfl) | rfl) | rfl) | rfl
  · simp [wordBinary, BitVec.add_comm]
  · simp [wordBinary, BitVec.mul_comm]
  · simp [wordBinary, BitVec.and_comm]
  · simp [wordBinary, BitVec.or_comm]
  · simp [wordBinary, BitVec.xor_comm]
  · simp [wordBinary, eq_comm]
  · simp [wordBinary, eq_comm]

def wordMachine (resident : String → Bool) : Machine (BitVec 64) (String → BitVec 64) where
  int n := BitVec.ofInt 64 n
  float bits _ := bits
  string _ := 0
  label _ := 0
  isZero v := v == 0
  equal a b := a == b
  binary op width a b := if width = 0 then wordBinary op a b else none
  concat _ _ := none
  unary op _ a := if op = "-" then some (-a) else none
  cast _ _ a := some a
  addressOf _ := 0
  load _ _ _ _ := none
  store _ _ _ _ _ := none
  call _ _ m := some (0, m)
  callIndirect _ _ m := some (0, m)
  new _ _ m := some (0, m)
  inlineAsm _ locals m := some (locals, m)
  kernel _ _ _ := none
  convert _ v := v
  copied _ v := v
  resident := resident
  getResident m x := m x
  setResident m x v := Function.update m x v
  narrow _ v := v
  get_set_self m x v := Function.update_self x v m
  narrow_get _ _ := rfl
  get_set_of_ne m x y v h := Function.update_of_ne (Ne.symm h) v m
  new_resident := by
    intro type size m v m' h x
    cases h
    rfl
  binary_comm := by
    intro op width a b h
    rw [wordBinary_comm h]

/-- Its symbols are eight bytes wide. -/
theorem wordMachine_kept (resident : String → Bool) (dest : IROperand) (v : BitVec 64) :
    (wordMachine resident).kept dest v = v := by
  cases dest with
  | symbol name => exact ite_self _
  | _ => rfl

theorem wordMachine_moved (resident : String → Bool) (instruction : IRInstruction)
    (v : BitVec 64) : (wordMachine resident).moved instruction v = v :=
  Machine.moved_id (fun _ _ => rfl) (fun _ _ => rfl) instruction v

def wordStart : IRState (BitVec 64) (String → BitVec 64) :=
  { pc := 0, temps := fun _ => none, locals := fun _ => none, memory := fun _ => 0, trace := [] }

/-! ## What a step can change -/

def IRInstruction.writes (instruction : IRInstruction) : List IROperand :=
  match instruction.op with
  | .rotateAdd => [instruction.dest, instruction.lhs, instruction.rhs]
  | .simdMinmaxI32 => [instruction.dest, instruction.arguments.headD .none]
  | op => if op.writesDestination then [instruction.dest] else []

def IROpcode.touchesMemory : IROpcode → Bool
  | .store | .call | .callIndirect | .inlineAsm => true
  | op => op.kernelWritesMemory

/-- A symbol's value is out of reach of the instruction's side effects, `resident` being
the symbols that live in memory. -/
def OutOfReach (resident : String → Bool) (instruction : IRInstruction) : IROperand → Prop
  | .symbol name => instruction.op ≠ .inlineAsm ∧
      (resident name = true → instruction.op.touchesMemory = false)
  | _ => True

def Keeps (resident : String → Bool) (instruction : IRInstruction) (operand : IROperand) : Prop :=
  operand ∉ instruction.writes ∧ OutOfReach resident instruction operand

variable (state : IRState V M)

theorem Machine.value_next (operand : IROperand) :
    machine.value state.next operand = machine.value state operand := by
  cases operand <;> rfl

theorem Machine.value_pc (pc : Nat) (operand : IROperand) :
    machine.value { state with pc := pc } operand = machine.value state operand := by
  cases operand <;> rfl

variable {state state' : IRState V M} {instruction : IRInstruction}

/-- What an assignment delivers depends on its width, its places and the value only. -/
theorem Machine.moved_congr {machine : Machine V M} {c d : IRInstruction} {v : V}
    (hFloat : d.isFloat = c.isFloat) (hBits : d.floatBits = c.floatBits)
    (hLhs : d.lhs = c.lhs) (hDest : d.dest = c.dest) : machine.moved d v = machine.moved c v := by
  unfold Machine.moved Machine.converted
  rw [hFloat, hBits, hLhs, hDest]

/-- A word that does not come from a temp arrives as it is. -/
theorem moved_symbol {machine : Machine V M} {c : IRInstruction} {name : String}
    (hFloat : c.isFloat = false) (hLhs : c.lhs = .symbol name) : machine.moved c = id := by
  funext v
  rw [Machine.moved, hFloat, hLhs]
  rfl

/-- Only a string `+` is anything but the binary operation. -/
theorem Machine.operate_of_ne {op : String} {a b : V} (hOp : op ≠ "+") :
    machine.operate instruction op a b = machine.binary op instruction.floatWidth a b := by
  rw [Machine.operate, if_neg (fun h => hOp h.2)]

theorem Machine.operate_plain {op : String} {a b : V} (hPlain : instruction.astRef = false) :
    machine.operate instruction op a b = machine.binary op instruction.floatWidth a b := by
  rw [Machine.operate, hPlain, if_neg (fun h => Bool.false_ne_true h.1)]

theorem compute_congr {machine : Machine V M}
    (hLhs : machine.value state' instruction.lhs = machine.value state instruction.lhs)
    (hRhs : machine.value state' instruction.rhs = machine.value state instruction.rhs) :
    machine.compute state' instruction = machine.compute state instruction := by
  unfold Machine.compute
  rw [hLhs, hRhs]

variable {dest operand : IROperand} {v : V}

theorem Machine.value_write_of_ne (hNe : operand ≠ dest) :
    machine.value (machine.write state dest v) operand = machine.value state operand := by
  cases dest with
  | temp name =>
    cases operand with
    | temp name' =>
      have hName : name' ≠ name := by
        rintro rfl
        exact hNe rfl
      exact Function.update_of_ne hName _ _
    | _ => rfl
  | symbol name =>
    by_cases hRes : machine.resident name = true
    · rw [Machine.write, if_pos hRes]
      cases operand with
      | symbol name' =>
        have hName : name ≠ name' := by
          rintro rfl
          exact hNe rfl
        simp only [Machine.value, Machine.symbolValue]
        rw [machine.get_set_of_ne _ _ _ _ hName]
      | _ => rfl
    · rw [Machine.write, if_neg hRes]
      cases operand with
      | symbol name' =>
        have hName : name' ≠ name := by
          rintro rfl
          exact hNe rfl
        simp only [Machine.value, Machine.symbolValue]
        rw [Function.update_of_ne hName]
      | _ => rfl
  | _ => rfl

theorem Machine.value_write_self
    (hDest : (∃ name, dest = .temp name) ∨ ∃ name, dest = .symbol name) :
    machine.value (machine.write state dest v) dest = some (machine.kept dest v) := by
  rcases hDest with ⟨name, rfl⟩ | ⟨name, rfl⟩
  · exact Function.update_self _ _ _
  · by_cases hRes : machine.resident name = true
    · simp only [Machine.write, if_pos hRes, Machine.value, Machine.symbolValue, Machine.kept]
      rw [machine.get_set_self]
    · simp only [Machine.write, if_neg hRes, Machine.value, Machine.symbolValue, Machine.kept]
      exact Function.update_self _ _ _

/-- A temp keeps the whole value. -/
theorem Machine.value_write_temp (name : String) :
    machine.value (machine.write state (.temp name) v) (.temp name) = some v :=
  machine.value_write_self (Or.inl ⟨name, rfl⟩)

/-- And so does a private symbol. -/
theorem Machine.value_write_private {name : String} (hPrivate : machine.resident name = false) :
    machine.value (machine.write state (.symbol name) v) (.symbol name) = some v := by
  rw [machine.value_write_self (Or.inr ⟨name, rfl⟩), Machine.kept, hPrivate]
  rfl

theorem Machine.value_write_congr
    (hValue : machine.value state operand = machine.value state' operand) :
    machine.value (machine.write state dest v) operand =
      machine.value (machine.write state' dest v) operand := by
  by_cases hEq : operand = dest
  · subst hEq
    cases operand with
    | temp name =>
      rw [machine.value_write_self (Or.inl ⟨name, rfl⟩),
        machine.value_write_self (Or.inl ⟨name, rfl⟩)]
    | symbol name =>
      rw [machine.value_write_self (Or.inr ⟨name, rfl⟩),
        machine.value_write_self (Or.inr ⟨name, rfl⟩)]
    | _ => exact hValue
  · rw [machine.value_write_of_ne hEq, machine.value_write_of_ne hEq, hValue]

variable {memory : M}

theorem Machine.value_memory (trace : List (CallEvent V)) (hSame : ∀ name, operand =
      .symbol name → machine.resident name = true → machine.getResident memory name =
      machine.getResident state.memory name) :
    machine.value { state with memory, trace } operand = machine.value state operand := by
  cases operand with
  | symbol name =>
    simp only [Machine.value, Machine.symbolValue]
    split
    · rename_i hRes
      rw [hSame name rfl hRes]
    · rfl
  | _ => rfl

@[simp] theorem Machine.write_pc (dest : IROperand) (v : V) :
    (machine.write state dest v).pc = state.pc := by
  cases dest with
  | symbol name =>
    rw [Machine.write]
    split <;> rfl
  | _ => rfl

/-! ### Where a running outcome comes from -/

/-- The opcodes that are executed by `executeKernel`. -/
def IROpcode.isKernel : IROpcode → Bool
  | .countWordStarts | .memcpyInline | .simdSumI32 | .simdMatmulN32 | .simdInsertionSortI32
  | .simdDotI32 | .simdScaleI32 | .simdClampI32 | .simdReverseCopyI32 | .lowerBoundI32
  | .prefixSumI32 | .simdMinmaxI32 => true
  | _ => false

variable {code : List IRInstruction}

section Inversion

variable {machine} {state : IRState V M}

theorem jumpTo_running {target : Option String} (h : jumpTo code state target = .running state') :
    ∃ name index, target = some name ∧ labelIndex code name = some index ∧
      state' = { state with pc := index } := by
  cases target with
  | none => cases h
  | some name =>
    rw [jumpTo] at h
    cases hIndex : labelIndex code name with
    | none =>
      rw [hIndex] at h
      cases h
    | some index =>
      rw [hIndex] at h
      exact ⟨name, index, rfl, hIndex, (Outcome.running.inj h).symm⟩

theorem finish_running {result : Option V}
    (h : machine.finish state dest result = .running state') :
    ∃ v, result = some v ∧ state' = (machine.write state dest v).next := by
  cases result with
  | none => cases h
  | some v => exact ⟨v, rfl, (Outcome.running.inj h).symm⟩

theorem executeKernel_running (h : machine.executeKernel state instruction = .running state') :
    ∃ v w memory, state' = (if instruction.op = .simdMinmaxI32 then
        machine.write (machine.write
          (if instruction.op.kernelWritesMemory then { state with memory } else state)
          instruction.dest v) (instruction.arguments.headD .none) w
        else machine.write
          (if instruction.op.kernelWritesMemory then { state with memory } else state)
          instruction.dest v).next := by
  unfold Machine.executeKernel at h
  split at h
  · cases h
  · rename_i v w memory _
    exact ⟨v, w, memory, (Outcome.running.inj h).symm⟩

theorem execute_kernel (hOp : instruction.op.isKernel = true) :
    machine.execute code state instruction = machine.executeKernel state instruction := by
  unfold Machine.execute
  cases hCase : instruction.op <;> rw [hCase] at hOp <;> first | rfl | exact absurd hOp (by decide)

/-- The opcodes that compute one value and write it to their destination. -/
def IROpcode.produces : IROpcode → Bool
  | .assign | .addressOf | .load | .binary | .unary | .cast | .call | .callIndirect | .new => true
  | _ => false

/-- What they compute: the value, the memory behind them and the calls they make. -/
def Machine.produce (machine : Machine V M) (state : IRState V M) (c : IRInstruction) :
    Option (V × M × List (CallEvent V)) :=
  match c.op with
  | .load =>
    match machine.value state c.lhs, machine.value state c.rhs with
    | some address, some size =>
      (machine.load address size c.floatWidth state.memory).map fun v => (v, state.memory, [])
    | _, _ => none
  | .call =>
    match c.text, c.arguments.mapM (machine.value state) with
    | some callee, some arguments =>
      (machine.call callee arguments state.memory).map fun r =>
        (r.1, r.2, [.direct callee arguments])
    | _, _ => none
  | .callIndirect =>
    match machine.value state c.lhs, c.arguments.mapM (machine.value state) with
    | some callee, some arguments =>
      (machine.callIndirect callee arguments state.memory).map fun r =>
        (r.1, r.2, [.indirect callee arguments])
    | _, _ => none
  | .new =>
    match c.text, machine.value state c.rhs with
    | some type, some size =>
      (machine.new type size state.memory).map fun r => (r.1, r.2, [])
    | _, _ => none
  | _ => (machine.compute state c).map fun v => (v, state.memory, [])

def IRState.behind (state : IRState V M) (memory : M) (calls : List (CallEvent V)) :
    IRState V M :=
  { state with memory, trace := state.trace ++ calls }

def Machine.deliver (machine : Machine V M) (state : IRState V M) (dest : IROperand) :
    Option (V × M × List (CallEvent V)) → Outcome V M
  | none => .stuck state
  | some (v, memory, calls) => .running (machine.write (state.behind memory calls) dest v).next

@[simp] theorem IRState.behind_nil (state : IRState V M) :
    state.behind state.memory [] = state := by
  rw [IRState.behind, List.append_nil]

theorem execute_produces (hOp : instruction.op.produces = true) :
    machine.execute code state instruction =
      machine.deliver state instruction.dest (machine.produce state instruction) := by
  have hFinish : ∀ result : Option V, machine.finish state instruction.dest result =
      machine.deliver state instruction.dest (result.map fun v => (v, state.memory, [])) := by
    rintro (_ | v)
    · rfl
    · rw [Option.map_some, Machine.deliver, IRState.behind_nil]
      rfl
  have hCall : ∀ (event : List (CallEvent V)) (result : Option (V × M)),
      machine.finishCall state instruction.dest event result =
        machine.deliver state instruction.dest (result.map fun r => (r.1, r.2, event)) := by
    rintro event (_ | r) <;> rfl
  unfold Machine.execute Machine.produce
  cases hCase : instruction.op <;> rw [hCase] at hOp <;>
    first | exact absurd hOp (by decide) | exact hFinish _ | skip
  all_goals
    dsimp only
    split
    · first | exact hFinish _ | exact hCall _ _
    · rfl

/-- Only calls change what the memory holds of a symbol. -/
theorem produce_resident {v : V} {calls : List (CallEvent V)}
    (h : machine.produce state instruction = some (v, memory, calls))
    (hTouch : instruction.op.touchesMemory = false) (name : String) :
    machine.getResident memory name = machine.getResident state.memory name := by
  unfold Machine.produce at h
  cases hOp : instruction.op <;> rw [hOp] at h hTouch <;> dsimp only at h
  case call => cases hTouch
  case callIndirect => cases hTouch
  case new =>
    split at h
    · obtain ⟨r, hNew, hIs⟩ := Option.map_eq_some_iff.mp h
      cases hIs
      exact machine.new_resident _ _ _ _ _ hNew name
    · cases h
  case load =>
    split at h
    · obtain ⟨_, -, hIs⟩ := Option.map_eq_some_iff.mp h
      cases hIs
      rfl
    · cases h
  all_goals
    obtain ⟨_, -, hIs⟩ := Option.map_eq_some_iff.mp h
    cases hIs
    rfl

theorem writes_of_produces (hOp : instruction.op.produces = true) :
    instruction.writes = [instruction.dest] := by
  unfold IRInstruction.writes
  cases hCase : instruction.op <;> rw [hCase] at hOp <;> first | rfl | exact absurd hOp (by decide)

/-- What an instruction can do to a state when the run goes on. -/
inductive Machine.Executed (machine : Machine V M) (instructions : List IRInstruction)
    (state : IRState V M) (c : IRInstruction) : IRState V M → Prop
  | passed : c.writes = [] → Executed machine instructions state c state.next
  | jumped {name : String} {index : Nat} :
    c.op = .jump ∨ c.op = .branchZero ∨ c.op = .branchEq → c.writes = [] → c.text = some name →
    labelIndex instructions name = some index →
    Executed machine instructions state c { state with pc := index }
  | produced {v : V} {memory : M} {calls : List (CallEvent V)} : c.op.produces = true →
    machine.produce state c = some (v, memory, calls) →
    Executed machine instructions state c (machine.write (state.behind memory calls) c.dest v).next
  | stored {memory : M} : c.op = .store →
    Executed machine instructions state c { state with memory }.next
  | rotated {v u : V} : c.op = .rotateAdd → Executed machine instructions state c (machine.write
      (machine.write (machine.write state c.dest v) c.lhs u) c.rhs v).next
  | kernel {v w : V} {memory : M} : c.op.isKernel = true →
    Executed machine instructions state c (if c.op = .simdMinmaxI32 then
      machine.write (machine.write (if c.op.kernelWritesMemory then { state with memory } else state)
        c.dest v) (c.arguments.headD .none) w
      else machine.write (if c.op.kernelWritesMemory then { state with memory } else state)
        c.dest v).next
  | assembled {locals : String → Option V} {memory : M} : c.op = .inlineAsm →
    Executed machine instructions state c { state with locals, memory }.next

theorem execute_cases (h : machine.execute code state instruction = .running state') :
    machine.Executed code state instruction state' := by
  by_cases hKernel : instruction.op.isKernel = true
  · rw [execute_kernel hKernel] at h
    obtain ⟨v, w, memory, rfl⟩ := executeKernel_running h
    exact .kernel hKernel
  by_cases hProduces : instruction.op.produces = true
  · rw [execute_produces hProduces] at h
    cases hResult : machine.produce state instruction with
    | none =>
      rw [hResult] at h
      cases h
    | some result =>
      rw [hResult] at h
      cases h
      exact .produced hProduces hResult
  have hWrites : instruction.op.writesDestination = false → instruction.op ≠ .rotateAdd →
      instruction.writes = [] := by
    intro hNo hRotate
    unfold IRInstruction.writes
    cases hOp : instruction.op <;> rw [hOp] at hNo hRotate hKernel <;>
      first | rfl | exact absurd rfl hRotate | exact absurd rfl hKernel | cases hNo
  have hNext : instruction.writes = [] → Outcome.running state.next = .running state' →
      machine.Executed code state instruction state' := by
    intro hNone hRun
    cases hRun
    exact .passed hNone
  have hJump : instruction.op = .jump ∨ instruction.op = .branchZero ∨ instruction.op = .branchEq →
      instruction.writes = [] → jumpTo code state instruction.text = .running state' →
      machine.Executed code state instruction state' := by
    intro hIs hNone hRun
    obtain ⟨name, index, hText, hIndex, rfl⟩ := jumpTo_running hRun
    exact .jumped hIs hNone hText hIndex
  unfold Machine.execute at h
  cases hOp : instruction.op <;> rw [hOp] at h hKernel hProduces hWrites hJump <;> dsimp only at h <;>
    first | exact absurd rfl hKernel | exact absurd rfl hProduces | skip
  case nop => exact hNext (hWrites rfl (by decide)) h
  case label => exact hNext (hWrites rfl (by decide)) h
  case declareLocal => exact hNext (hWrites rfl (by decide)) h
  case jump => exact hJump (.inl rfl) (hWrites rfl (by decide)) h
  case branchZero =>
    split at h
    · cases h
    · split at h
      · exact hJump (.inr (.inl rfl)) (hWrites rfl (by decide)) h
      · exact hNext (hWrites rfl (by decide)) h
  case branchEq =>
    split at h
    · split at h
      · exact hJump (.inr (.inr rfl)) (hWrites rfl (by decide)) h
      · exact hNext (hWrites rfl (by decide)) h
    · cases h
  case store =>
    split at h
    · split at h
      · cases h
      · cases h
        exact .stored hOp
    · cases h
  case rotateAdd =>
    split at h
    · split at h
      · cases h
      · cases h
        exact .rotated hOp
    · cases h
  case return_ =>
    split at h
    · cases h
    · split at h <;> cases h
  case inlineAsm =>
    split at h
    · cases h
    · split at h
      · cases h
      · cases h
        exact .assembled hOp

theorem value_kernelMemory {operand : IROperand}
    (hReach : OutOfReach machine.resident instruction operand) : machine.value
      (if instruction.op.kernelWritesMemory then { state with memory } else state) operand =
      machine.value state operand := by
  split
  · rename_i hKernel
    refine machine.value_memory state.trace ?_
    rintro name rfl hRes
    have hTouch := hReach.2 hRes
    cases hCase : instruction.op <;> rw [hCase] at hTouch hKernel <;>
      first | exact absurd hTouch (by decide) | exact absurd hKernel (by decide)
  · rfl

theorem writes_of_kernel (hOp : instruction.op.isKernel = true) : instruction.writes =
    if instruction.op = .simdMinmaxI32 then [instruction.dest, instruction.arguments.headD .none]
    else [instruction.dest] := by
  unfold IRInstruction.writes
  cases hCase : instruction.op <;> rw [hCase] at hOp <;> first | rfl | exact absurd hOp (by decide)

/-- **The frame of a step.** -/
theorem execute_keeps (h : machine.execute code state instruction = .running state')
    (hKeeps : Keeps machine.resident instruction operand) :
    machine.value state' operand = machine.value state operand := by
  obtain ⟨hWrites, hReach⟩ := hKeeps
  cases execute_cases h with
  | passed => exact machine.value_next _ _
  | jumped => exact machine.value_pc _ _ _
  | produced hOp hProduce =>
    rw [writes_of_produces hOp, List.mem_singleton] at hWrites
    rw [machine.value_next, machine.value_write_of_ne hWrites, IRState.behind]
    refine machine.value_memory _ ?_
    rintro name rfl hRes
    exact produce_resident hProduce (hReach.2 hRes) name
  | stored hOp =>
    rw [machine.value_next]
    refine machine.value_memory state.trace ?_
    rintro name rfl hRes
    have hOut := hReach.2 hRes
    rw [hOp] at hOut
    cases hOut
  | rotated hOp =>
    rw [IRInstruction.writes, hOp] at hWrites
    simp only [List.mem_cons, List.not_mem_nil, or_false, not_or] at hWrites
    rw [machine.value_next, machine.value_write_of_ne hWrites.2.2,
      machine.value_write_of_ne hWrites.2.1, machine.value_write_of_ne hWrites.1]
  | kernel hOp =>
    rw [writes_of_kernel hOp] at hWrites
    rw [machine.value_next]
    split
    · rename_i hMinmax
      rw [if_pos hMinmax, List.mem_cons, List.mem_singleton, not_or] at hWrites
      rw [machine.value_write_of_ne hWrites.2, machine.value_write_of_ne hWrites.1,
        value_kernelMemory hReach]
    · rename_i hOther
      rw [if_neg hOther, List.mem_singleton] at hWrites
      rw [machine.value_write_of_ne hWrites, value_kernelMemory hReach]
  | assembled hOp =>
    cases operand with
    | symbol name => exact absurd hOp hReach.1
    | _ => rfl

theorem execute_pc (h : machine.execute code state instruction = .running state') :
    state'.pc = state.pc + 1 ∨
      ((instruction.op = .jump ∨ instruction.op = .branchZero ∨ instruction.op = .branchEq) ∧
        ∃ name, instruction.text = some name ∧ labelIndex code name = some state'.pc) := by
  cases execute_cases h with
  | jumped hIs _ hText hIndex => exact Or.inr ⟨hIs, _, hText, hIndex⟩
  | kernel =>
    left
    simp only [IRState.next]
    split <;> simp only [Machine.write_pc] <;> split <;> rfl
  | _ => exact Or.inl (by simp [IRState.next, IRState.behind])

theorem execute_returned {value : Option V}
    (h : machine.execute code state instruction = .returned value state') :
    instruction.op = .return_ ∧ state' = state := by
  have hJump : ∀ target, jumpTo code state target ≠ .returned value state' := by
    intro target hRun
    unfold jumpTo at hRun
    split at hRun
    · cases hRun
    · split at hRun <;> cases hRun
  by_cases hKernel : instruction.op.isKernel = true
  · rw [execute_kernel hKernel, Machine.executeKernel] at h
    split at h <;> cases h
  by_cases hProduces : instruction.op.produces = true
  · rw [execute_produces hProduces] at h
    cases hResult : machine.produce state instruction <;> rw [hResult] at h <;> cases h
  unfold Machine.execute at h
  cases hOp : instruction.op <;> rw [hOp] at h hKernel hProduces <;> dsimp only at h <;>
    first
    | exact absurd rfl hKernel
    | exact absurd rfl hProduces
    | cases h
    | exact absurd h (hJump _)
    | skip
  case return_ =>
    split at h
    · cases h
      exact ⟨rfl, rfl⟩
    · split at h
      · cases h
      · cases h
        exact ⟨rfl, rfl⟩
  all_goals
    split at h <;> first
      | cases h
      | (split at h <;> first | cases h | exact absurd h (hJump _))

theorem execute_writes_place {place : IROperand}
    (hPlace : (∃ name, place = .temp name) ∨ ∃ name, place = .symbol name)
    (hWrites : place ∈ instruction.writes)
    (h : machine.execute code state instruction = .running state') :
    ∃ v, machine.value state' place = some v := by
  have hWrite : ∀ (s : IRState V M) (dest : IROperand) (v : V),
      place = dest ∨ (∃ w, machine.value s place = some w) →
      ∃ w, machine.value (machine.write s dest v) place = some w := by
    intro s dest v hOr
    by_cases hDest : place = dest
    · rw [← hDest]
      exact ⟨_, machine.value_write_self hPlace⟩
    · rw [machine.value_write_of_ne hDest]
      exact hOr.resolve_left hDest
  cases execute_cases h with
  | passed hNone =>
    rw [hNone] at hWrites
    cases hWrites
  | jumped _ hNone =>
    rw [hNone] at hWrites
    cases hWrites
  | produced hOp =>
    rw [writes_of_produces hOp, List.mem_singleton] at hWrites
    exact hWrite _ _ _ (Or.inl hWrites)
  | rotated hOp =>
    rw [IRInstruction.writes, hOp] at hWrites
    simp only [List.mem_cons, List.not_mem_nil, or_false] at hWrites
    rcases hWrites with hDest | hLhs | hRhs
    · exact hWrite _ _ _ (Or.inr (hWrite _ _ _ (Or.inr (hWrite _ _ _ (Or.inl hDest)))))
    · exact hWrite _ _ _ (Or.inr (hWrite _ _ _ (Or.inl hLhs)))
    · exact hWrite _ _ _ (Or.inl hRhs)
  | kernel hOp =>
    rw [writes_of_kernel hOp] at hWrites
    split
    · rename_i hMinmax
      rw [if_pos hMinmax, List.mem_cons, List.mem_singleton] at hWrites
      rcases hWrites with hDest | hArg
      · exact hWrite _ _ _ (Or.inr (hWrite _ _ _ (Or.inl hDest)))
      · exact hWrite _ _ _ (Or.inl hArg)
    · rename_i hOther
      rw [if_neg hOther, List.mem_singleton] at hWrites
      exact hWrite _ _ _ (Or.inl hWrites)
  | stored hOp =>
    rw [IRInstruction.writes, hOp] at hWrites
    cases hWrites
  | assembled hOp =>
    rw [IRInstruction.writes, hOp] at hWrites
    cases hWrites

theorem execute_writes {t : String} (hWrites : IROperand.temp t ∈ instruction.writes)
    (h : machine.execute code state instruction = .running state') :
    ∃ v, machine.value state' (.temp t) = some v :=
  execute_writes_place (Or.inl ⟨t, rfl⟩) hWrites h

end Inversion

/-! ## Whole runs -/

theorem getElem?_labelIndex {name : String} {index : Nat} (h : labelIndex code name = some index) :
    ∃ instruction, code[index]? = some instruction ∧ instruction.op = .label := by
  obtain ⟨hLt, hIs, -⟩ := List.findIdx?_eq_some_iff_getElem.mp h
  rw [Bool.and_eq_true, beq_iff_eq] at hIs
  exact ⟨code[index], List.getElem?_eq_getElem hLt, hIs.1⟩

variable {code' : List IRInstruction}

theorem execute_congr (hLabels : ∀ name, labelIndex code' name = labelIndex code name)
    (state : IRState V M) (instruction : IRInstruction) :
    machine.execute code' state instruction =
      machine.execute code state instruction := by
  have hJump : ∀ target, jumpTo code' state target = jumpTo code state target := by
    intro target
    cases target with
    | none => rfl
    | some name => rw [jumpTo, jumpTo, hLabels]
  simp only [Machine.execute, hJump]

theorem labelIndex_congr (hSame : ∀ (name : String) (p : Nat),
      code'[p]?.map (fun i => i.op == .label && i.text == some name) =
        code[p]?.map (fun i => i.op == .label && i.text == some name)) (name : String) :
    labelIndex code' name = labelIndex code name := by
  have hMap : code'.map (fun i => i.op == .label && i.text == some name) =
      code.map (fun i => i.op == .label && i.text == some name) := by
    apply List.ext_getElem?
    intro p
    rw [List.getElem?_map, List.getElem?_map, hSame]
  have hVia : ∀ l : List IRInstruction, labelIndex l name =
      (l.map (fun i => i.op == .label && i.text == some name)).findIdx? id := by
    intro l
    rw [List.findIdx?_map]
    rfl
  rw [hVia, hVia, hMap]

theorem step_at {machine : Machine V M} (hAt : code[state.pc]? = some instruction) :
    machine.step code state = machine.execute code state instruction := by
  rw [Machine.step, hAt]

theorem run_succ {n : Nat} {outcome : Outcome V M}
    (h : machine.run code n outcome = .running state) :
    machine.run code (n + 1) outcome = machine.step code state := by
  induction n generalizing outcome with
  | zero =>
    cases outcome with
    | running start =>
      cases h
      simp [Machine.run]
    | returned value start => cases h
    | stuck start => cases h
  | succ n ih =>
    cases outcome with
    | running start =>
      exact ih h
    | returned value start => cases h
    | stuck start => cases h

theorem run_add {machine : Machine V M} (code : List IRInstruction) (a b : Nat)
    (outcome : Outcome V M) :
    machine.run code (a + b) outcome = machine.run code b (machine.run code a outcome) := by
  induction a generalizing outcome with
  | zero =>
    rw [Nat.zero_add]
    cases outcome <;> rfl
  | succ a ih =>
    rw [Nat.add_right_comm]
    cases outcome with
    | running state => exact ih _
    | returned value state => cases b <;> rfl
    | stuck state => cases b <;> rfl

theorem run_invariant (Inv : IRState V M → Prop)
    (hInv : ∀ state state', Inv state → machine.step code state = .running state' →
      Inv state') (n : Nat) (outcome : Outcome V M)
    (hStart : ∀ start, outcome = .running start → Inv start)
    (hRun : machine.run code n outcome = .running state) : Inv state := by
  induction n generalizing outcome with
  | zero =>
    cases outcome <;> exact hStart state hRun
  | succ n ih =>
    cases outcome with
    | running start =>
      refine ih _ ?_ hRun
      intro next hNext
      exact hInv start next (hStart start rfl) hNext
    | returned value start => cases hRun
    | stuck start => cases hRun

/-- **Lockstep.** -/
theorem run_eq_of_invariant (Inv : IRState V M → Prop)
    (hStep : ∀ state, Inv state → machine.step code' state = machine.step code state)
    (hInv : ∀ state state', Inv state → machine.step code state = .running state' →
      Inv state') (n : Nat) (outcome : Outcome V M)
    (hStart : ∀ state, outcome = .running state → Inv state) :
    machine.run code' n outcome = machine.run code n outcome := by
  induction n generalizing outcome with
  | zero => rfl
  | succ n ih =>
    cases outcome with
    | running state =>
      rw [Machine.run, Machine.run, hStep state (hStart state rfl)]
      apply ih
      intro state' hRun
      exact hInv state state' (hStart state rfl) hRun
    | returned value state => rfl
    | stuck state => rfl

end Mettle.IR
