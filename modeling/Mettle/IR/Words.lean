import Mettle.IR.Semantics

/-!
# Mettle — integer code over 64-bit words

What the code generator makes of the integer operators: `idiv`, `sar`, signed comparisons, and
the arithmetic of `wordBinary`. `SignedWords` collects what a result about integer code needs to
know of its environment; the rest of the environment (memory, calls, residents) stays
arbitrary. `cellMachine` is such an environment, with one word at every address.
-/

namespace Mettle.IR

def signedBinary (op : String) (a b : BitVec 64) : Option (BitVec 64) :=
  if op = "/" then
    -- `idiv` traps
    if b = 0 ∨ (a = BitVec.intMin 64 ∧ b = -1) then none else some (a.sdiv b)
  else if op = "%" then
    if b = 0 ∨ (a = BitVec.intMin 64 ∧ b = -1) then none else some (a.srem b)
  else if op = "<<" then some (a <<< (b.toNat % 64))
  else if op = ">>" then some (a.sshiftRight (b.toNat % 64))
  else if op = "<" then some (if a.slt b then 1 else 0)
  else if op = "<=" then some (if a.sle b then 1 else 0)
  else if op = ">" then some (if b.slt a then 1 else 0)
  else if op = ">=" then some (if b.sle a then 1 else 0)
  else wordBinary op a b

theorem signedBinary_comm {op : String} (h : irBinaryOpIsCommutative op = true)
    (a b : BitVec 64) : signedBinary op a b = signedBinary op b a := by
  have hWord : ∀ a b, signedBinary op a b = wordBinary op a b := by
    intro a b
    simp only [irBinaryOpIsCommutative, Bool.or_eq_true, beq_iff_eq] at h
    rcases h with (((((rfl | rfl) | rfl) | rfl) | rfl) | rfl) | rfl <;> rfl
  rw [hWord, hWord, wordBinary_comm h]

/-- The environment computes with integers as the code generator does. -/
structure SignedWords {M : Type} (machine : Machine (BitVec 64) M) : Prop where
  int : ∀ n, machine.int n = BitVec.ofInt 64 n
  isZero : ∀ v, machine.isZero v = (v == 0)
  binary : ∀ op a b, machine.binary op 0 a b = signedBinary op a b
  -- the words that a declared integer type holds are an interval with zero in it
  narrow : ∀ x v w, machine.narrow x v = v →
    0 ≤ w.toInt ∧ w.toInt ≤ v.toInt ∨ v.toInt ≤ w.toInt ∧ w.toInt ≤ 0 → machine.narrow x w = w

variable {M : Type} {machine : Machine (BitVec 64) M}

/-- An integer operator that no string has. -/
theorem SignedWords.operate (hWords : SignedWords machine) {c : IRInstruction} {op : String}
    (hOp : op ≠ "+") (hWidth : c.floatWidth = 0) (a b : BitVec 64) :
    machine.operate c op a b = signedBinary op a b := by
  rw [Machine.operate_of_ne machine hOp, hWidth, hWords.binary]

/-- An integer operator of an instruction without an expression. -/
theorem SignedWords.plain (hWords : SignedWords machine) {c : IRInstruction} {op : String}
    (hRef : c.astRef = false) (hWidth : c.floatWidth = 0) (a b : BitVec 64) :
    machine.operate c op a b = signedBinary op a b := by
  rw [Machine.operate_plain machine hRef, hWidth, hWords.binary]

/-- **A symbol that holds a word holds every one between it and zero.** -/
theorem SignedWords.kept_between (hWords : SignedWords machine) {state : IRState (BitVec 64) M}
    {x : String} {v w : BitVec 64} (hv : machine.value state (.symbol x) = some v)
    (hBetween : 0 ≤ w.toInt ∧ w.toInt ≤ v.toInt ∨ v.toInt ≤ w.toInt ∧ w.toInt ≤ 0) :
    machine.kept (.symbol x) w = w := by
  simp only [Machine.kept]
  split
  · rename_i hRes
    refine hWords.narrow x v w ?_ hBetween
    rw [Machine.value, Machine.symbolValue, if_pos hRes] at hv
    rw [← Option.some.inj hv, machine.narrow_get]
  · rfl

/-- A memory of resident symbols and of one word at every address. -/
structure Cells where
  residents : String → BitVec 64
  cells : BitVec 64 → BitVec 64

def cellMachine (resident : String → Bool) : Machine (BitVec 64) Cells where
  int n := BitVec.ofInt 64 n
  float bits _ := bits
  string _ := 0
  label _ := 0
  isZero v := v == 0
  equal a b := a == b
  binary op width a b := if width = 0 then signedBinary op a b else none
  concat _ _ := none
  unary op _ a := if op = "-" then some (-a) else none
  cast _ _ a := some a
  addressOf _ := 0
  load address _ _ m := some (m.cells address)
  store address v _ _ m := some { m with cells := Function.update m.cells address v }
  call _ _ m := some (0, m)
  callIndirect _ _ m := some (0, m)
  new _ _ m := some (0, m)
  inlineAsm _ locals m := some (locals, m)
  kernel _ _ _ := none
  convert _ v := v
  copied _ v := v
  resident := resident
  getResident m x := m.residents x
  setResident m x v := { m with residents := Function.update m.residents x v }
  narrow _ v := v
  get_set_self m x v := Function.update_self x v m.residents
  narrow_get _ _ := rfl
  get_set_of_ne m x y v h := Function.update_of_ne (Ne.symm h) v m.residents
  new_resident := by
    intro type size m v m' h x
    cases h
    rfl
  binary_comm := by
    intro op width a b h
    rw [signedBinary_comm h]

theorem cellMachine_signed (resident : String → Bool) : SignedWords (cellMachine resident) where
  int _ := rfl
  isZero _ := rfl
  binary _ _ _ := rfl
  narrow _ _ _ _ _ := rfl

theorem cellMachine_moved (resident : String → Bool) (instruction : IRInstruction)
    (v : BitVec 64) : (cellMachine resident).moved instruction v = v :=
  Machine.moved_id (fun _ _ => rfl) (fun _ _ => rfl) instruction v

def cellStart (locals : String → Option (BitVec 64)) (cells : BitVec 64 → BitVec 64) :
    IRState (BitVec 64) Cells :=
  { pc := 0, temps := fun _ => none, locals, memory := { residents := fun _ => 0, cells }
    trace := [] }

end Mettle.IR
