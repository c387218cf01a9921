import Mettle.Codegen.IntegerOps

/-!
# Mettle — strength-reduced arithmetic

Division and remainder by a power of two are a biased arithmetic shift
(`emitPowerOfTwo`), and `binary_emit_imul_reg_reg_imm32` multiplies by shifts, negations
and `lea` where the constant allows. Both run on every 64-bit value, so both are compared
with the arithmetic they stand for on all of them.
-/

namespace Mettle.Codegen

open Mettle.IR Mettle.Lib List Option

-- ---
-- Multiplication by a constant
-- ---

/-- `binary_immediate_positive_power_of_two_i32`: the test of
`extractPositivePowerOfTwo` on 32 bits. -/
def immediatePositivePowerOfTwoI32 (value : Int) : Option Nat := extractPositivePowerOfTwo value

/-- `binary_emit_lea_reg_base_index_scale_disp` with displacement 0: `rsp` cannot be an
index. -/
def emitLeaRegBaseIndexScale (destination base index : GpRegister) (scale : Nat) :
    Option (List X86) :=
  if index = .rsp then none
  else if scale = 1 ∨ scale = 2 ∨ scale = 4 ∨ scale = 8 then
    some [.leaScaled destination base index scale]
  else none

def INT32_MIN : Int := -2 ^ 31

/-- `binary_emit_imul_reg_reg_small_imm`. -/
def emitImulRegRegSmallImm (destination source : GpRegister) (immediate : Int) :
    Option (List X86) :=
  if immediate = INT32_MIN then none
  else
    let scale := if immediate.natAbs = 3 then some 2
      else if immediate.natAbs = 5 then some 4
      else if immediate.natAbs = 9 then some 8
      else none
    scale.bind fun scale =>
      (emitLeaRegBaseIndexScale destination source source scale).map fun code =>
        code ++ (if immediate < 0 then [.neg destination] else [])

/-- `binary_emit_imul_reg_reg_imm32`, of the immediate as a signed number. -/
def emitImulRegRegImm32 (destination source : GpRegister) (immediate : Int) : List X86 :=
  if immediate = 0 then [.xorSelf32 destination]
  else if immediate = 1 then [.mov destination source]
  else if immediate = -1 then [.mov destination source, .neg destination]
  else
    match immediatePositivePowerOfTwoI32 immediate with
    | some shift => [.mov destination source, .shiftImm .shl destination shift]
    | none =>
      match (if immediate ≠ INT32_MIN then immediatePositivePowerOfTwoI32 (-immediate)
        else none) with
      | some shift => [.mov destination source, .shiftImm .shl destination shift, .neg destination]
      | none =>
        match emitImulRegRegSmallImm destination source immediate with
        | some code => code
        | none => [.imulImm destination source immediate]

-- ---
-- Powers of two
-- ---

theorem extractPositivePowerOfTwo_pow (k : Nat) : extractPositivePowerOfTwo (2 ^ k) = some k := by
  have hNat : ((2 : Int) ^ k).toNat = 2 ^ k := by
    exact Int.toNat_natCast _
  have hAnd : 2 ^ k &&& (2 ^ k - 1) = 0 :=
    (Nat.and_sub_one_eq_zero_iff_isPowerOfTwo (by positivity)).mpr ⟨k, rfl⟩
  unfold extractPositivePowerOfTwo
  rw [hNat, if_pos ⟨by positivity, hAnd⟩, Nat.log2_two_pow]

variable {shift : Nat}

theorem eq_pow_of_extract {value : Int} (h : extractPositivePowerOfTwo value = some shift) :
    value = 2 ^ shift := by
  unfold extractPositivePowerOfTwo at h
  split at h
  · rename_i hPower
    obtain ⟨hPos, hAnd⟩ := hPower
    obtain ⟨k, hk⟩ := (Nat.and_sub_one_eq_zero_iff_isPowerOfTwo (by omega)).mp hAnd
    obtain rfl : value.toNat.log2 = shift := some.inj h
    rw [hk, Nat.log2_two_pow]
    calc value = (value.toNat : Int) := (Int.toNat_of_nonneg hPos.le).symm
      _ = 2 ^ k := by rw [hk]; norm_cast
  · cases h

theorem shlImm_eq_mul (x : Word) (hShift : shift < 64) :
    ShiftOp.shl.apply x shift = x * BitVec.ofInt 64 (2 ^ shift) := by
  have hPow : BitVec.ofInt 64 ((2 : Int) ^ shift) = BitVec.twoPow 64 shift := by
    rw [show ((2 : Int) ^ shift) = ((2 ^ shift : Nat) : Int) by norm_cast, BitVec.ofInt_natCast]
    exact BitVec.eq_of_toNat_eq (by rw [BitVec.toNat_ofNat, BitVec.toNat_twoPow])
  rw [ShiftOp.apply, Nat.mod_eq_of_lt hShift, hPow, BitVec.mul_twoPow_eq_shiftLeft]

-- ---
-- The rounded quotient
-- ---

/-- Rounding a negative quotient to zero is rounding down after adding one less than the
divisor. -/
theorem tdiv_of_neg {a d : Int} (ha : a < 0) (hd : 0 < d) : a.tdiv d = (a + (d - 1)) / d := by
  have hSplit := Int.mul_ediv_add_emod (-a) d
  have hLow := Int.emod_nonneg (-a) hd.ne'
  have hHigh := Int.emod_lt_of_pos (-a) hd
  have hQuotient : a.tdiv d = -(-a / d) := by
    rw [← Int.neg_neg a, Int.neg_tdiv, Int.tdiv_eq_ediv_of_nonneg (by omega), Int.neg_neg]
  rw [hQuotient]
  refine (Int.ediv_emod_unique (r := d - 1 - (-a) % d) hd |>.mpr ⟨?_, by omega, by omega⟩).1.symm
  rw [Int.mul_neg]
  omega

theorem sshiftRight_sign (x : Word) :
    x.sshiftRight 63 = if x.toInt < 0 then BitVec.ofInt 64 (-1) else 0#64 := by
  have hLow := BitVec.two_mul_toInt_lt (x := x)
  have hHigh := BitVec.le_two_mul_toInt (x := x)
  apply BitVec.eq_of_toInt_eq
  rw [BitVec.toInt_sshiftRight, Int.shiftRight_eq_div_pow]
  split
  · rw [show (BitVec.ofInt 64 (-1)).toInt = -1 from rfl]
    omega
  · rw [BitVec.toInt_zero]
    omega

variable {k : Nat}

theorem pow_bounds (hk : k ≤ 62) : (1 : Int) ≤ 2 ^ k ∧ (2 : Int) ^ k ≤ 2 ^ 62 :=
  ⟨Int.pow_pos (by decide), pow_le_pow_right₀ (by decide) hk⟩

/-- **A shift with the bias rounds to zero.** -/
theorem sshiftRight_biased (x : Word) (hk : k ≤ 62) :
    (x + (x.sshiftRight 63 &&& BitVec.ofInt 64 (2 ^ k - 1))).sshiftRight k =
      BitVec.ofInt 64 (x.toInt.tdiv (2 ^ k)) := by
  obtain ⟨hOne, hMax⟩ := pow_bounds hk
  have hHigh := BitVec.le_two_mul_toInt (x := x)
  rw [← wordOf_toInt (BitVec.sshiftRight _ _), BitVec.toInt_sshiftRight,
    Int.shiftRight_eq_div_pow, sshiftRight_sign]
  refine congrArg wordOf ?_
  by_cases hSign : x.toInt < 0
  · have hMask : (BitVec.ofInt 64 (-1) &&& BitVec.ofInt 64 (2 ^ k - 1) : Word) =
        BitVec.ofInt 64 (2 ^ k - 1) := by
      rw [show (BitVec.ofInt 64 (-1) : Word) = BitVec.allOnes 64 from rfl, BitVec.allOnes_and]
    have hSum : (x + BitVec.ofInt 64 (2 ^ k - 1)).toInt = x.toInt + (2 ^ k - 1) := by
      rw [BitVec.toInt_add, BitVec.toInt_ofInt, Int.add_bmod_bmod]
      exact Int.bmod_eq_of_le (by omega) (by omega)
    rw [if_pos hSign, hMask, hSum, tdiv_of_neg hSign (by omega)]
    norm_cast
  · rw [if_neg hSign, BitVec.zero_and, BitVec.add_zero, Int.tdiv_eq_ediv_of_nonneg (by omega)]
    norm_cast

-- ---
-- Execution
-- ---

def SameBut (changed : List GpRegister) (state state' : X86State) : Prop :=
  state'.memory = state.memory ∧ ∀ r, r ∉ changed → state'.registers r = state.registers r

/-- The code runs, leaves this word in the register and touches only registers named. -/
def Computes (globalAddress : String → Word) (state : X86State) (code : List X86)
    (register : GpRegister) (w : Word) (changed : List GpRegister) : Prop :=
  ∃ state', executeCode globalAddress state code = some state' ∧
    state'.registers register = w ∧ SameBut changed state state'

section

variable (globalAddress : String → Word) (state : X86State)

theorem powerQuotient_executes (hk : k ≤ 62) :
    Computes globalAddress state (emitPowerQuotient k (2 ^ k - 1)) .rax
      (BitVec.ofInt 64 ((state.registers .rax).toInt.tdiv (2 ^ k))) [.rax, .rcx, .r10] := by
  rw [← sshiftRight_biased _ hk]
  unfold emitPowerQuotient emitAndMask Computes
  have hCount : k % 64 = k := Nat.mod_eq_of_lt (by omega)
  -- the mask is an immediate, or needs `r10`
  split
  all_goals
    simp only [cons_append, nil_append, executeCode_cons, executeCode_nil,
      X86.execute, bind_some, some.injEq, exists_eq_left']
    refine ⟨?_, rfl, ?_⟩
    · simp [X86State.set, AluOp.apply, ShiftOp.apply, hCount]
    · intro r hr
      simp only [mem_cons, not_mem_nil, or_false, not_or] at hr
      simp [X86State.set, hr]

theorem SameBut.mono {changed more : List GpRegister} {state state' : X86State}
    (h : SameBut changed state state') (hSub : ∀ r ∈ changed, r ∈ more) :
    SameBut more state state' :=
  ⟨h.1, fun r hr => h.2 r fun hIn => hr (hSub r hIn)⟩

theorem powerOfTwo_quotient (hk : k ≤ 62) :
    Computes globalAddress state (emitPowerOfTwo "/" (2 ^ k) k) .rax
      (BitVec.ofInt 64 ((state.registers .rax).toInt.tdiv (2 ^ k)))
      [.rax, .rcx, .r10, .r11] := by
  unfold emitPowerOfTwo
  by_cases hZero : k = 0
  · subst hZero
    rw [if_pos rfl, pow_zero, Int.tdiv_one, BitVec.ofInt_toInt]
    exact ⟨state, rfl, rfl, rfl, fun r _ => rfl⟩
  · rw [if_neg hZero]
    obtain ⟨state', hRun, hRax, hSame⟩ := powerQuotient_executes globalAddress state hk
    exact ⟨state', hRun, hRax, hSame.mono (by simp +contextual)⟩

theorem powerOfTwo_remainder (hk : k ≤ 62) :
    Computes globalAddress state (emitPowerOfTwo "%" (2 ^ k) k) .rax
      (BitVec.ofInt 64 ((state.registers .rax).toInt.tmod (2 ^ k)))
      [.rax, .rcx, .r10, .r11] := by
  unfold emitPowerOfTwo
  rw [if_neg (by decide)]
  by_cases hZero : k = 0
  · subst hZero
    rw [if_pos rfl, pow_zero, Int.tmod_one]
    refine ⟨state.set .rax 0, rfl, registers_set _ _, rfl, ?_⟩
    intro r hr
    exact registers_set_of_ne (ne_of_not_mem_cons hr) _
  · rw [if_neg hZero]
    obtain ⟨state', hRun, hRax, hMemory, hSame⟩ :=
      powerQuotient_executes globalAddress (state.set .r11 (state.registers .rax)) hk
    rw [registers_set_of_ne (by decide)] at hRax
    have hSaved : state'.registers .r11 = state.registers .rax :=
      (hSame .r11 (by decide)).trans (registers_set _ _)
    -- the dividend waits in `r11` while the quotient is multiplied back
    have hWord : state.registers .rax - BitVec.ofInt 64
          ((state.registers .rax).toInt.tdiv (2 ^ k)) * BitVec.ofInt 64 (2 ^ k) =
        BitVec.ofInt 64 ((state.registers .rax).toInt.tmod (2 ^ k)) := by
      rw [← BitVec.ofInt_mul]
      nth_rewrite 1 [← wordOf_toInt (state.registers .rax)]
      unfold wordOf
      rw [BitVec.sub_eq_add_neg, ← BitVec.ofInt_neg, ← BitVec.ofInt_add, Int.tmod_def,
        Int.mul_comm (2 ^ k), Int.sub_eq_add_neg]
    unfold Computes
    simp only [cons_append, executeCode_cons, executeCode_append, X86.execute,
      bind_some, hRun, executeCode_nil, some.injEq, exists_eq_left']
    refine ⟨?_, hMemory, ?_⟩
    · simp only [X86State.set, AluOp.apply, Function.update_self, ne_eq, reduceCtorEq,
        not_false_eq_true, Function.update_of_ne, hSaved]
      rw [hRax, shlImm_eq_mul _ (by omega), hWord]
    · intro r hr
      simp only [mem_cons, not_mem_nil, or_false, not_or] at hr
      have hKept := hSame r (by simp [hr.1, hr.2.1, hr.2.2.1])
      simp [X86State.set, hr.1, hr.2.2.2, hKept]

-- The forms of the multiplication, one lemma each.

theorem mov_computes (destination source : GpRegister) :
    Computes globalAddress state [.mov destination source] destination
      (state.registers source) [destination] := by
  refine ⟨state.set destination (state.registers source), rfl, registers_set _ _, rfl, ?_⟩
  intro r hr
  exact registers_set_of_ne (ne_of_not_mem_cons hr) _

section

variable {globalAddress : String → Word} {state : X86State} {code : List X86}
  {destination : GpRegister} {w : Word}
  (h : Computes globalAddress state code destination w [destination])
include h

theorem Computes.andThen {w' : Word} {instruction : X86}
    (hStep : ∀ before : X86State, before.registers destination = w → instruction.execute
      globalAddress before = some { before.set destination w' with flags := none }) :
    Computes globalAddress state (code ++ [instruction]) destination w' [destination] := by
  obtain ⟨before, hRun, hWord, hMemory, hSame⟩ := h
  refine ⟨{ before.set destination w' with flags := none }, ?_, registers_set _ _, hMemory, ?_⟩
  · rw [executeCode_append, hRun, bind_some, executeCode_cons, hStep before hWord,
      bind_some, executeCode_nil]
  · intro r hr
    exact (registers_set_of_ne (ne_of_not_mem_cons hr) w').trans (hSame r hr)

theorem Computes.neg :
    Computes globalAddress state (code ++ [.neg destination]) destination (-w) [destination] :=
  h.andThen fun before hWord => by rw [X86.execute, hWord]

end

theorem mov_shl_computes (destination source : GpRegister) (hShift : shift < 64) :
    Computes globalAddress state [.mov destination source, .shiftImm .shl destination shift]
      destination (state.registers source * BitVec.ofInt 64 (2 ^ shift)) [destination] :=
  (mov_computes globalAddress state destination source).andThen fun before hWord => by
    rw [X86.execute, hWord, shlImm_eq_mul _ hShift]

theorem leaScaled_computes (destination source : GpRegister) (scale : Nat) :
    Computes globalAddress state [.leaScaled destination source source scale] destination
      (state.registers source * BitVec.ofInt 64 (scale + 1)) [destination] := by
  have hWord : state.registers source + state.registers source * BitVec.ofNat 64 scale =
      state.registers source * BitVec.ofInt 64 (scale + 1) := by
    rw [show ((scale : Int) + 1) = ((scale + 1 : Nat) : Int) by norm_cast, BitVec.ofInt_natCast,
      BitVec.ofNat_add, BitVec.mul_add, BitVec.mul_one, BitVec.add_comm]
  refine ⟨state.set destination (state.registers source +
    state.registers source * BitVec.ofNat 64 scale), rfl, ?_, rfl, ?_⟩
  · rw [registers_set, hWord]
  · intro r hr
    exact registers_set_of_ne (ne_of_not_mem_cons hr) _

theorem mul_ofInt_neg (x : Word) (c : Int) :
    -(x * BitVec.ofInt 64 c) = x * BitVec.ofInt 64 (-c) := by
  rw [BitVec.ofInt_neg, BitVec.mul_neg]

theorem smallImm_inv {destination source : GpRegister} {immediate : Int} {code : List X86}
    (h : emitImulRegRegSmallImm destination source immediate = some code) :
    ∃ scale : Nat, immediate.natAbs = scale + 1 ∧
      code = [.leaScaled destination source source scale] ++
        (if immediate < 0 then [.neg destination] else []) := by
  unfold emitImulRegRegSmallImm at h
  split at h
  · cases h
  obtain ⟨scale, hScale, h⟩ := bind_eq_some_iff.mp h
  obtain ⟨lea, hLea, rfl⟩ := map_eq_some_iff.mp h
  have hCode : lea = [.leaScaled destination source source scale] := by
    unfold emitLeaRegBaseIndexScale at hLea
    split at hLea
    · cases hLea
    split at hLea
    · exact (some.inj hLea).symm
    · cases hLea
  refine ⟨scale, ?_, by rw [hCode]⟩
  split at hScale
  · cases hScale; assumption
  split at hScale
  · cases hScale; assumption
  split at hScale
  · cases hScale; assumption
  · cases hScale

/-- **The product by every 32-bit constant**, in any two registers. -/
theorem imulRegRegImm32_executes (destination source : GpRegister) {immediate : Int}
    (hLow : INT32_MIN ≤ immediate) (hHigh : immediate < 2 ^ 31) :
    Computes globalAddress state (emitImulRegRegImm32 destination source immediate) destination
      (state.registers source * BitVec.ofInt 64 immediate) [destination] := by
  have hShift : ∀ {value : Int} {shift : Nat}, value ≤ 2 ^ 31 →
      immediatePositivePowerOfTwoI32 value = some shift → value = 2 ^ shift ∧ shift < 64 := by
    intro value shift hLe hPower
    have hValue := eq_pow_of_extract hPower
    refine ⟨hValue, ?_⟩
    by_contra hBig
    have : (2 : Int) ^ 64 ≤ 2 ^ shift := pow_le_pow_right₀ (by decide) (by omega)
    omega
  unfold INT32_MIN at hLow
  unfold emitImulRegRegImm32
  by_cases hZero : immediate = 0
  · subst hZero
    refine ⟨{ state.set destination 0 with flags := none }, ?_, ?_, rfl, ?_⟩
    · rw [if_pos rfl, executeCode_cons, X86.execute, BitVec.xor_self]
      rfl
    · exact (registers_set _ _).trans (BitVec.mul_zero).symm
    · intro r hr
      exact registers_set_of_ne (ne_of_not_mem_cons hr) _
  rw [if_neg hZero]
  by_cases hOne : immediate = 1
  · subst hOne
    rw [if_pos rfl, show BitVec.ofInt 64 1 = 1#64 from rfl, BitVec.mul_one]
    exact mov_computes globalAddress state destination source
  rw [if_neg hOne]
  by_cases hMinusOne : immediate = -1
  · subst hMinusOne
    rw [if_pos rfl, ← mul_ofInt_neg, show BitVec.ofInt 64 1 = 1#64 from rfl, BitVec.mul_one]
    exact (mov_computes globalAddress state destination source).neg
  rw [if_neg hMinusOne]
  split
  · rename_i shift hPower
    obtain ⟨rfl, hCount⟩ := hShift hHigh.le hPower
    exact mov_shl_computes globalAddress state destination source hCount
  split
  · rename_i shift hPower
    split at hPower
    · obtain ⟨hValue, hCount⟩ := hShift (by omega) hPower
      rw [← Int.neg_neg immediate, ← mul_ofInt_neg, hValue]
      exact (mov_shl_computes globalAddress state destination source hCount).neg
    · cases hPower
  split
  · rename_i code hSmall
    obtain ⟨scale, hAbs, rfl⟩ := smallImm_inv hSmall
    have hLea := leaScaled_computes globalAddress state destination source scale
    by_cases hSign : immediate < 0
    · rw [if_pos hSign, show immediate = -((scale : Int) + 1) by omega, ← mul_ofInt_neg]
      exact hLea.neg
    · rw [if_neg hSign, append_nil, show immediate = (scale : Int) + 1 by omega]
      exact hLea
  · refine ⟨{ state.set destination (state.registers source * BitVec.ofInt 64 immediate) with
      flags := none }, rfl, registers_set _ _, rfl, ?_⟩
    intro r hr
    exact registers_set_of_ne (ne_of_not_mem_cons hr) _

end

/-- **Strength-reduced arithmetic is exact.** For every word in `rax` and every power of
two that a signed word can hold, the code of `/` and `%` leaves the quotient and the
remainder rounded to zero; for every 32-bit constant and every two registers, equal or
not, the code of the multiplication leaves the product modulo `2 ^ 64`. -/
theorem strength_reduction_exact (globalAddress : String → Word) (state : X86State) : (∀ k : Fin 63,
      powerOfTwoDivisor "/" (.int (2 ^ k.val)) = some (2 ^ k.val, k.val) ∧
      powerOfTwoDivisor "%" (.int (2 ^ k.val)) = some (2 ^ k.val, k.val) ∧
      Computes globalAddress state (emitPowerOfTwo "/" (2 ^ k.val) k.val) .rax
        (BitVec.ofInt 64 ((state.registers .rax).toInt.tdiv (2 ^ k.val)))
        [.rax, .rcx, .r10, .r11] ∧
      Computes globalAddress state (emitPowerOfTwo "%" (2 ^ k.val) k.val) .rax
        (BitVec.ofInt 64 ((state.registers .rax).toInt.tmod (2 ^ k.val)))
        [.rax, .rcx, .r10, .r11]) ∧
    ∀ (immediate : BitVec 32) (destination source : GpRegister), Computes globalAddress state
        (emitImulRegRegImm32 destination source immediate.toInt) destination
        (state.registers source * BitVec.ofInt 64 immediate.toInt) [destination] := by
  constructor
  · intro k
    have hk : k.val ≤ 62 := by omega
    refine ⟨?_, ?_, powerOfTwo_quotient globalAddress state hk,
      powerOfTwo_remainder globalAddress state hk⟩
    · simp only [powerOfTwoDivisor, extractPositivePowerOfTwo_pow]
      rfl
    · simp only [powerOfTwoDivisor, extractPositivePowerOfTwo_pow]
      rfl
  · intro immediate destination source
    have hLow := BitVec.le_two_mul_toInt (x := immediate)
    have hHigh := BitVec.two_mul_toInt_lt (x := immediate)
    exact imulRegRegImm32_executes globalAddress state destination source
      (by unfold INT32_MIN; omega) (by omega)

end Mettle.Codegen
