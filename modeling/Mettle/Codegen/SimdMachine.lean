import Mettle.Codegen.X86

/-!
# Mettle — the machine the vector kernels run on

The instructions of the vector kernels (`codegen/binary/simd.c`), with their jumps resolved to
places in the code, and what they do to the registers, the lanes of the `xmm` registers, the memory
and the flags. The state also keeps what has been read, as addresses and numbers of bytes.
-/

namespace Mettle.Codegen

open Mettle.Lib

-- ---
-- Instructions
-- ---

/-- The condition in the second byte of a `jcc`, and of a `cmovcc`. -/
inductive Condition
  | always | below | aboveEqual | less | lessEqual | greater | greaterEqual | equal | notEqual
  deriving DecidableEq

/-- The packed operations on the lanes of two registers. -/
inductive PackedOp
  | paddd | pmulld | pminsd | pmaxsd | pxor | por | pcmpeqb | movdqa
  deriving DecidableEq

/-- One instruction; 32-bit results clear the upper half of the register. -/
inductive Simd
  | movImm32 (destination : GpRegister) (immediate : BitVec 32)
  | mov32 (destination source : GpRegister)
  | mov (destination source : GpRegister)
  | xorSelf32 (destination : GpRegister)
  | shl32 (destination : GpRegister) (count : Nat)
  | shr32 (destination : GpRegister) (count : Nat)
  | not32 (destination : GpRegister)
  | or32 (destination source : GpRegister)
  | and32 (destination source : GpRegister)
  | andImm (destination : GpRegister) (immediate : Nat)
  | popcnt32 (destination source : GpRegister)
  | add (destination source : GpRegister)
  | sub (destination source : GpRegister)
  | sub32 (destination source : GpRegister)
  | addImm (destination : GpRegister) (immediate : Int)
  | imulImm (destination source : GpRegister) (immediate : Int)
  | lea (destination base index : GpRegister) (scale : Nat)
  | movsxd (destination source : GpRegister)
  | load32 (destination base : GpRegister)
  | loadByte (destination base : GpRegister)
  | store32 (base source : GpRegister)
  | store32At (base : GpRegister) (displacement : Int) (source : GpRegister)
  | cmp (lhs rhs : GpRegister)
  | cmpImm (lhs : GpRegister) (immediate : Int)
  | cmp32 (lhs rhs : GpRegister)
  | cmpImm32 (lhs : GpRegister) (immediate : BitVec 32)
  | test32 (register : GpRegister)
  | cmov (condition : Condition) (destination source : GpRegister)
  | jump (condition : Condition) (target : Nat)
  | movdquLoad (destination : Nat) (base : GpRegister) (displacement : Int)
  | movdquStore (base : GpRegister) (displacement : Int) (source : Nat)
  | pshufd (destination source immediate : Nat)
  | packed (op : PackedOp) (destination source : Nat)
  | movdToXmm (destination : Nat) (source : GpRegister)
  | movdFromXmm (destination : GpRegister) (source : Nat)
  | pmovmskb (destination : GpRegister) (source : Nat)
  deriving DecidableEq

-- ---
-- States
-- ---

/-- The 32-bit lanes of an `xmm` register. -/
abbrev Lanes := Fin 4 → BitVec 32

instance laneCount : NeZero 4 := ⟨by decide⟩

/-- What a comparison leaves behind: its left operand is below its right one, or less than it, or
equal to it. -/
structure Compared where
  below : Bool
  less : Bool
  equal : Bool

def compareWords {n : Nat} (a b : BitVec n) : Compared :=
  { below := a.ult b, less := a.slt b, equal := a == b }

def Condition.holds (flags : Compared) : Condition → Bool
  | .always => true
  | .below => flags.below
  | .aboveEqual => !flags.below
  | .less => flags.less
  | .lessEqual => flags.less || flags.equal
  | .greater => !flags.less && !flags.equal
  | .greaterEqual => !flags.less
  | .equal => flags.equal
  | .notEqual => !flags.equal

structure SimdState where
  registers : GpRegister → Word
  lanes : Nat → Lanes
  memory : ByteMemory
  flags : Compared
  reads : List (Word × Nat)
  pc : Nat

def word32 (memory : ByteMemory) (address : Word) : BitVec 32 :=
  BitVec.ofNat 32 (readLE memory address 4)

/-- Element `i` of the array at `base`. -/
def element (memory : ByteMemory) (base : Word) (i : Nat) : BitVec 32 :=
  word32 memory (base + BitVec.ofNat 64 (4 * i))

def lanesAt (memory : ByteMemory) (address : Word) : Lanes :=
  fun lane => word32 memory (address + BitVec.ofNat 64 (4 * lane))

def storeLanes (memory : ByteMemory) (address : Word) (lanes : Lanes) : ByteMemory :=
  fun p =>
    if h : (p - address).toNat < 16 then
      BitVec.ofNat 8 ((lanes ⟨(p - address).toNat / 4, by omega⟩).toNat /
        256 ^ ((p - address).toNat % 4))
    else memory p

def minSigned {n : Nat} (a b : BitVec n) : BitVec n := if b.slt a then b else a

def maxSigned {n : Nat} (a b : BitVec n) : BitVec n := if a.slt b then b else a

/-- Byte `k` of a word, from the lowest one on. -/
def byteOf {n : Nat} (w : BitVec n) (k : Nat) : BitVec 8 := w.extractLsb' (8 * k) 8

def bitsWord (bit : Nat → Bool) : (n : Nat) → BitVec n
  | 0 => 0#0
  | n + 1 => BitVec.cons (bit n) (bitsWord bit n)

theorem getLsbD_bitsWord (bit : Nat → Bool) (n i : Nat) :
    (bitsWord bit n).getLsbD i = (decide (i < n) && bit i) := by
  induction n with
  | zero => simp [bitsWord]
  | succ n ih =>
    rw [bitsWord, BitVec.getLsbD_cons, ih]
    rcases Nat.lt_trichotomy i n with hLess | rfl | hMore
    · simp [hLess, Nat.ne_of_lt hLess, Nat.lt_succ_of_lt hLess]
    · simp
    · simp [Nat.ne_of_gt hMore, show ¬ i < n by omega, show ¬ i < n + 1 by omega]

/-- `pcmpeqb` on one lane: all bits of a byte are set where the two bytes are equal. -/
def equalBytes (a b : BitVec 32) : BitVec 32 :=
  bitsWord (fun j => byteOf a (j / 8) == byteOf b (j / 8)) 32

def PackedOp.apply (a b : BitVec 32) : PackedOp → BitVec 32
  | .paddd => a + b
  | .pmulld => a * b
  | .pminsd => minSigned a b
  | .pmaxsd => maxSigned a b
  | .pxor => a ^^^ b
  | .por => a ||| b
  | .pcmpeqb => equalBytes a b
  | .movdqa => b

/-- Lane `lane` of a `pshufd` comes from the lane in two bits of the immediate. -/
def shuffled (lanes : Lanes) (immediate : Nat) : Lanes :=
  fun lane => lanes ⟨immediate / 4 ^ lane.val % 4, Nat.mod_lt _ (by decide)⟩

def signMask (lanes : Lanes) : BitVec 32 :=
  bitsWord (fun j => decide (j < 16) &&
    (lanes ⟨j / 4 % 4, Nat.mod_lt _ (by decide)⟩).getLsbD (8 * (j % 4) + 7)) 32

-- ---
-- Execution
-- ---

def SimdState.set (s : SimdState) (register : GpRegister) (w : Word) : SimdState :=
  { s with registers := Function.update s.registers register w }

def SimdState.setLanes (s : SimdState) (register : Nat) (lanes : Lanes) : SimdState :=
  { s with lanes := Function.update s.lanes register lanes }

def SimdState.low (s : SimdState) (register : GpRegister) : BitVec 32 :=
  (s.registers register).setWidth 32

def Simd.effect (s : SimdState) : Simd → SimdState
  | .movImm32 destination immediate => s.set destination (immediate.setWidth 64)
  | .mov32 destination source => s.set destination ((s.low source).setWidth 64)
  | .mov destination source => s.set destination (s.registers source)
  | .xorSelf32 destination => s.set destination 0
  | .shl32 destination count => s.set destination ((s.low destination <<< count).setWidth 64)
  | .shr32 destination count => s.set destination ((s.low destination >>> count).setWidth 64)
  | .not32 destination => s.set destination ((~~~ s.low destination).setWidth 64)
  | .or32 destination source =>
    s.set destination ((s.low destination ||| s.low source).setWidth 64)
  | .and32 destination source =>
    s.set destination ((s.low destination &&& s.low source).setWidth 64)
  | .andImm destination immediate =>
    s.set destination (s.registers destination &&& BitVec.ofNat 64 immediate)
  | .popcnt32 destination source =>
    s.set destination ((s.low source).cpop.setWidth 64)
  | .add destination source => s.set destination (s.registers destination + s.registers source)
  | .sub destination source => s.set destination (s.registers destination - s.registers source)
  | .sub32 destination source =>
    s.set destination ((s.low destination - s.low source).setWidth 64)
  | .addImm destination immediate =>
    s.set destination (s.registers destination + BitVec.ofInt 64 immediate)
  | .imulImm destination source immediate =>
    s.set destination (s.registers source * BitVec.ofInt 64 immediate)
  | .lea destination base index scale =>
    s.set destination (s.registers base + s.registers index * BitVec.ofNat 64 scale)
  | .movsxd destination source => s.set destination ((s.low source).signExtend 64)
  | .load32 destination base =>
    { s.set destination ((word32 s.memory (s.registers base)).setWidth 64) with
      reads := s.reads ++ [(s.registers base, 4)] }
  | .loadByte destination base =>
    { s.set destination ((s.memory (s.registers base)).setWidth 64) with
      reads := s.reads ++ [(s.registers base, 1)] }
  | .store32 base source =>
    { s with memory := writeLE s.memory (s.registers base) 4 (s.low source).toNat }
  | .store32At base displacement source =>
    { s with
      memory := writeLE s.memory (s.registers base + BitVec.ofInt 64 displacement) 4
        (s.low source).toNat }
  | .cmp lhs rhs => { s with flags := compareWords (s.registers lhs) (s.registers rhs) }
  | .cmpImm lhs immediate =>
    { s with flags := compareWords (s.registers lhs) (BitVec.ofInt 64 immediate) }
  | .cmp32 lhs rhs => { s with flags := compareWords (s.low lhs) (s.low rhs) }
  | .cmpImm32 lhs immediate => { s with flags := compareWords (s.low lhs) immediate }
  | .test32 register => { s with flags := compareWords (s.low register) 0 }
  | .cmov condition destination source =>
    s.set destination
      (if condition.holds s.flags then s.registers source else s.registers destination)
  | .jump _ _ => s
  | .movdquLoad destination base displacement =>
    { s.setLanes destination
        (lanesAt s.memory (s.registers base + BitVec.ofInt 64 displacement)) with
      reads := s.reads ++ [(s.registers base + BitVec.ofInt 64 displacement, 16)] }
  | .movdquStore base displacement source =>
    { s with
      memory := storeLanes s.memory (s.registers base + BitVec.ofInt 64 displacement)
        (s.lanes source) }
  | .pshufd destination source immediate =>
    s.setLanes destination (shuffled (s.lanes source) immediate)
  | .packed op destination source =>
    s.setLanes destination fun lane => op.apply (s.lanes destination lane) (s.lanes source lane)
  | .movdToXmm destination source =>
    s.setLanes destination fun lane => if lane = 0 then s.low source else 0
  | .movdFromXmm destination source => s.set destination ((s.lanes source 0).setWidth 64)
  | .pmovmskb destination source => s.set destination ((signMask (s.lanes source)).setWidth 64)

def Simd.execute (s : SimdState) (instruction : Simd) : SimdState :=
  match instruction with
  | .jump condition target =>
    { s with pc := if condition.holds s.flags then target else s.pc + 1 }
  | instruction => { instruction.effect s with pc := s.pc + 1 }

def Simd.destination : Simd → Option GpRegister
  | .movImm32 destination _ | .mov32 destination _ | .mov destination _ | .xorSelf32 destination
  | .shl32 destination _ | .shr32 destination _ | .not32 destination | .or32 destination _
  | .and32 destination _ | .andImm destination _ | .popcnt32 destination _
  | .add destination _ | .sub destination _ | .sub32 destination _
  | .addImm destination _ | .imulImm destination _ _ | .lea destination _ _ _
  | .movsxd destination _ | .load32 destination _ | .loadByte destination _
  | .cmov _ destination _ | .movdFromXmm destination _ | .pmovmskb destination _ =>
    some destination
  | _ => none

def Simd.stored (s : SimdState) : Simd → List (Word × Nat)
  | .store32 base _ => [(s.registers base, 4)]
  | .store32At base displacement _ => [(s.registers base + BitVec.ofInt 64 displacement, 4)]
  | .movdquStore base displacement _ => [(s.registers base + BitVec.ofInt 64 displacement, 16)]
  | _ => []

def simdStep (code : List Simd) (s : SimdState) : SimdState :=
  match code[s.pc]? with
  | some instruction => instruction.execute s
  | none => s

def simdRun (code : List Simd) : Nat → SimdState → SimdState
  | 0, s => s
  | n + 1, s => simdRun code n (simdStep code s)

def simdWrites (code : List Simd) : Nat → SimdState → List (Word × Nat)
  | 0, _ => []
  | n + 1, s => (code[s.pc]?.elim [] (Simd.stored s)) ++ simdWrites code n (simdStep code s)

/-- The run comes to `last`. -/
def Steps (code : List Simd) (s last : SimdState) : Prop := ∃ n, simdRun code n s = last

/-- The run ends in `last`. -/
def Halts (code : List Simd) (s last : SimdState) : Prop :=
  Steps code s last ∧ code[last.pc]? = none

/-- The run comes to `last`, and has written there. -/
def StepsWriting (code : List Simd) (s last : SimdState) (writes : List (Word × Nat)) : Prop :=
  ∃ n, simdRun code n s = last ∧ simdWrites code n s = writes

/-- The accesses touch nothing but the `n` bytes from `base` on. -/
def Within (base : Word) (n : Nat) (accesses : List (Word × Nat)) : Prop :=
  ∀ access ∈ accesses, ∀ j < access.2, ∃ k < n,
    access.1 + BitVec.ofNat 64 j = base + BitVec.ofNat 64 k

variable {first second : List (Word × Nat)}

theorem Within.append {base : Word} {n : Nat} (h : Within base n first) (h' : Within base n second)
    : Within base n (first ++ second) :=
  fun access hMem => (List.mem_append.mp hMem).elim (h access) (h' access)

section

variable {code : List Simd} {s t u : SimdState}

theorem simdRun_add (n m : Nat) (s : SimdState) :
    simdRun code (n + m) s = simdRun code m (simdRun code n s) := by
  induction n generalizing s with
  | zero => rw [Nat.zero_add, simdRun]
  | succ n ih => rw [Nat.add_right_comm, simdRun, simdRun, ih]

theorem Simd.execute_keeps {instruction : Simd} {register : GpRegister}
    (h : instruction.destination ≠ some register) :
    (instruction.execute s).registers register = s.registers register := by
  cases instruction <;> simp_all [Simd.execute, Simd.effect, SimdState.set, SimdState.setLanes,
    Simd.destination, Function.update_of_ne, Ne.symm]

theorem simdRun_keeps {register : GpRegister}
    (h : ∀ instruction ∈ code, instruction.destination ≠ some register) (n : Nat)
    (s : SimdState) : (simdRun code n s).registers register = s.registers register := by
  induction n generalizing s with
  | zero => rfl
  | succ n ih =>
    rw [simdRun, ih, simdStep]
    split
    · exact Simd.execute_keeps (h _ (List.mem_of_getElem? ‹_›))
    · rfl

theorem Steps.trans (h : Steps code s t) (h' : Steps code t u) : Steps code s u := by
  obtain ⟨n, rfl⟩ := h
  obtain ⟨m, rfl⟩ := h'
  exact ⟨n + m, simdRun_add n m s⟩

theorem simdWrites_add (n m : Nat) (s : SimdState) :
    simdWrites code (n + m) s = simdWrites code n s ++ simdWrites code m (simdRun code n s) := by
  induction n generalizing s with
  | zero => rw [Nat.zero_add, simdRun, simdWrites, List.nil_append]
  | succ n ih => rw [Nat.add_right_comm, simdWrites, simdRun, simdWrites, ih, List.append_assoc]

theorem StepsWriting.trans (h : StepsWriting code s t first) (h' : StepsWriting code t u second) :
    StepsWriting code s u (first ++ second) := by
  obtain ⟨n, rfl, rfl⟩ := h
  obtain ⟨m, rfl, rfl⟩ := h'
  exact ⟨n + m, simdRun_add n m s, simdWrites_add n m s⟩

theorem StepsWriting.steps {writes : List (Word × Nat)} (h : StepsWriting code s t writes) :
    Steps code s t :=
  h.imp fun _ hRun => hRun.1

theorem simdRun_reads (n : Nat) (s : SimdState) : s.reads ⊆ (simdRun code n s).reads := by
  induction n generalizing s with
  | zero => exact List.Subset.refl _
  | succ n ih =>
    refine List.Subset.trans ?_ (ih _)
    rw [simdStep]
    split
    · rename_i instruction _
      cases instruction <;> simp [Simd.execute, Simd.effect, SimdState.set, SimdState.setLanes]
    · exact List.Subset.refl _

theorem simdRun_of_ended (h : code[s.pc]? = none) (n : Nat) : simdRun code n s = s := by
  induction n with
  | zero => rfl
  | succ n ih =>
    have hStay : simdStep code s = s := by rw [simdStep, h]
    rw [simdRun, hStay, ih]

theorem Halts.after (h : Halts code s t) (h' : Steps code s u) : Steps code u t := by
  obtain ⟨⟨n, rfl⟩, hEnd⟩ := h
  obtain ⟨m, rfl⟩ := h'
  rcases Nat.le_total n m with hLe | hLe
  · obtain ⟨k, rfl⟩ := Nat.exists_eq_add_of_le hLe
    exact ⟨0, by rw [simdRun, simdRun_add, simdRun_of_ended hEnd]⟩
  · obtain ⟨k, rfl⟩ := Nat.exists_eq_add_of_le hLe
    exact ⟨k, (simdRun_add m k s).symm⟩

/-- **One end.** -/
theorem Halts.unique (h : Halts code s t) (h' : Halts code s u) : t = u := by
  obtain ⟨⟨n, rfl⟩, hEnd⟩ := h
  obtain ⟨⟨m, rfl⟩, hEnd'⟩ := h'
  rcases Nat.le_total n m with hLe | hLe
  · obtain ⟨k, rfl⟩ := Nat.exists_eq_add_of_le hLe
    rw [simdRun_add, simdRun_of_ended hEnd]
  · obtain ⟨k, rfl⟩ := Nat.exists_eq_add_of_le hLe
    rw [simdRun_add, simdRun_of_ended hEnd']

end

-- ---
-- Symbolic execution
-- ---

attribute [simp] simdRun simdWrites simdStep Simd.execute Simd.effect Simd.stored SimdState.set
  SimdState.setLanes SimdState.low Condition.holds compareWords

end Mettle.Codegen
