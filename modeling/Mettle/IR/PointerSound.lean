import Mettle.IR.PointerInduction

/-!
# Mettle — loops that step a pointer, run by run

A run that meets the conditions of `StepsPointer`, and the run of the rewritten function: at every
place of the loop the pointers stand at the element of the index (`Tracks`), so the rewritten
accesses have the addresses they had, and the rewritten guard comes out as before.
-/

namespace Mettle.IR

open List Option

-- ---
-- The pointers
-- ---

variable {code : List IRInstruction}

variable {x : String} {b : PtrBaseBinding} {r : PtrRewrite} {M : Type}
  {machine : Machine (BitVec 64) M}

section Pointers

variable {s t e e' : IRState (BitVec 64) M}

theorem Machine.value_private (hPrivate : machine.resident x = false) :
    machine.value e (.symbol x) = e.locals x := by
  rw [Machine.value, Machine.symbolValue, hPrivate]
  rfl

theorem Machine.write_private (hPrivate : machine.resident x = false) (v : BitVec 64) :
    machine.write e (.symbol x) v = { e with locals := Function.update e.locals x (some v) } := by
  rw [Machine.write, hPrivate]
  rfl

/-- The states differ in some symbols, and in the place, at most. -/
structure LocalsBut (names : List String) (e' e : IRState (BitVec 64) M) : Prop where
  memory : e'.memory = e.memory
  temps : e'.temps = e.temps
  trace : e'.trace = e.trace
  locals : ∀ x, x ∉ names → e'.locals x = e.locals x

theorem bindings_run {g : PtrBaseBinding → List IRInstruction} (f : PtrBaseBinding → BitVec 64)
    (bs : List PtrBaseBinding) (hNodup : (bs.map (·.ptr)).Nodup) :
    ∀ e : IRState (BitVec 64) M, BlockAt code e.pc (bs.flatMap g) →
      (∀ b ∈ bs, ∀ e', BlockAt code e'.pc (g b) → LocalsBut (bs.map (·.ptr)) e' e →
        e'.locals b.ptr = e.locals b.ptr →
        machine.Performs code e' (g b).length [] { e' with
          locals := Function.update e'.locals b.ptr (some (f b)), pc := e'.pc + (g b).length }) →
      ∃ e', machine.Performs code e (bs.flatMap g).length [] e' ∧
        e'.pc = e.pc + (bs.flatMap g).length ∧ LocalsBut (bs.map (·.ptr)) e' e ∧
        ∀ b ∈ bs, e'.locals b.ptr = some (f b) := by
  induction bs with
  | nil =>
    intro e _ _
    exact ⟨e, .start, rfl, ⟨rfl, rfl, rfl, fun _ _ => rfl⟩, nofun⟩
  | cons b bs ih =>
    intro e hBlock hOne
    rw [map_cons, nodup_cons] at hNodup
    obtain ⟨e₁, he₁⟩ : ∃ e₁ : IRState (BitVec 64) M, e₁ = { e with
      locals := Function.update e.locals b.ptr (some (f b)), pc := e.pc + (g b).length } :=
      ⟨_, rfl⟩
    have hFirst : machine.Performs code e (g b).length [] e₁ := by
      rw [he₁]
      exact hOne b mem_cons_self e hBlock.left ⟨rfl, rfl, rfl, fun _ _ => rfl⟩ rfl
    have hOther : ∀ x, x ≠ b.ptr → e₁.locals x = e.locals x := by
      intro x hNe
      rw [he₁]
      exact Function.update_of_ne hNe _ _
    have hTail : BlockAt code e₁.pc (bs.flatMap g) := by
      rw [he₁]
      exact hBlock.right
    obtain ⟨e', hPerforms, hPc, hBut, hSet⟩ := ih hNodup.2 e₁ hTail fun b' hb' e' hBlock' hBut hSame => by
      refine hOne b' (mem_cons_of_mem _ hb') e' hBlock' ?_ ?_
      · refine ⟨hBut.memory.trans (by rw [he₁]), hBut.temps.trans (by rw [he₁]),
          hBut.trace.trans (by rw [he₁]), ?_⟩
        intro x hx
        rw [map_cons, mem_cons, not_or] at hx
        rw [hBut.locals x hx.2, hOther x hx.1]
      · rw [hSame]
        refine hOther _ ?_
        intro hEq
        exact hNodup.1 (hEq ▸ mem_map_of_mem hb')
    refine ⟨e', ?_, ?_, ?_, ?_⟩
    · rw [flatMap_cons, length_append]
      exact hFirst.trans hPerforms
    · rw [hPc, he₁, flatMap_cons, length_append, Nat.add_assoc]
    · refine ⟨hBut.memory.trans (by rw [he₁]), hBut.temps.trans (by rw [he₁]),
        hBut.trace.trans (by rw [he₁]), ?_⟩
      intro x hx
      rw [map_cons, mem_cons, not_or] at hx
      rw [hBut.locals x hx.2, hOther x hx.1]
    · intro b' hb'
      rcases mem_cons.mp hb' with rfl | hb'
      · rw [hBut.locals _ hNodup.1, he₁]
        exact Function.update_self _ _ _
      · exact hSet b' hb'

/-- The pointers stand at the element of the index, and at the end of the array. -/
structure Tracks (machine : Machine (BitVec 64) M) (r : PtrRewrite) (s e : IRState (BitVec 64) M) :
    Prop where
  index : ∃ i, machine.value s (.symbol r.loop.iv) = some i ∧ ∀ b ∈ r.bindings, ∃ v,
    machine.value s (.symbol b.base) = some v ∧ e.locals b.ptr = some (v + (i <<< 2))
  last : ∃ n, machine.value s (.symbol r.loop.bound) = some n ∧ ∀ b ∈ r.bindings.head?, ∃ v,
    machine.value s (.symbol b.base) = some v ∧
      e.locals (endPtrOf r.h r.bindings) = some (v + (n <<< 2))

theorem Tracks.kept (h : Tracks machine r s e)
    (hIv : machine.value t (.symbol r.loop.iv) = machine.value s (.symbol r.loop.iv))
    (hBound : machine.value t (.symbol r.loop.bound) = machine.value s (.symbol r.loop.bound))
    (hBases : ∀ b ∈ r.bindings, machine.value t (.symbol b.base) = machine.value s (.symbol b.base))
    (hFresh : ∀ x ∈ r.freshNames, e'.locals x = e.locals x) : Tracks machine r t e' := by
  obtain ⟨i, hi, hPtrs⟩ := h.index
  obtain ⟨n, hn, hEnd⟩ := h.last
  refine ⟨⟨i, hIv.trans hi, ?_⟩, ⟨n, hBound.trans hn, ?_⟩⟩
  · intro b hb
    obtain ⟨v, hv, hPtr⟩ := hPtrs b hb
    refine ⟨v, (hBases b hb).trans hv, ?_⟩
    rw [hFresh _ (mem_cons_of_mem _ (mem_map_of_mem hb)), hPtr]
  · intro b hb
    obtain ⟨v, hv, hPtr⟩ := hEnd b hb
    refine ⟨v, (hBases b (mem_of_mem_head? hb)).trans hv, ?_⟩
    rw [hFresh _ mem_cons_self, hPtr]

theorem address_succ (v i : BitVec 64) : v + (i <<< 2) + 4 = v + ((i + 1) <<< 2) := by
  have hShift : ∀ x : BitVec 64, x <<< 2 = x * 4 := by
    intro x
    rw [BitVec.shiftLeft_eq_mul_twoPow]
    rfl
  rw [hShift, hShift, BitVec.add_mul, BitVec.add_assoc]
  rfl

theorem PtrRewrite.fresh_lost (hx : x ∈ r.freshNames) : .symbol x ∈ r.lost :=
  mem_append_left _ (mem_cons_of_mem _ (mem_map_of_mem hx))

theorem PtrRewrite.dropped_lost {p : Nat} {c : IRInstruction} (hc : r.instructions[p]? = some c)
    (hDrops : r.drops p c = true) : c.dest ∈ r.lost := by
  refine mem_append_right _ (mem_map.mpr ⟨(c, p), ?_, rfl⟩)
  exact mem_filter.mpr ⟨mk_mem_zipIdx_iff_getElem?.mpr hc, hDrops⟩

theorem InductionSafe.fresh_of_lost {resident : String → Bool} (hSafe : InductionSafe resident r)
    (hx : .symbol x ∈ r.lost) : x ∈ r.freshNames := by
  rcases mem_append.mp hx with hx | hx
  · rcases mem_cons.mp hx with hx | hx
    · cases hx
    · obtain ⟨y, hy, hEq⟩ := mem_map.mp hx
      cases hEq
      exact hy
  · obtain ⟨⟨c, p⟩, hMem, hEq⟩ := mem_map.mp hx
    obtain ⟨hAt, hDrops⟩ := mem_filter.mp hMem
    obtain ⟨-, t, ht⟩ := hSafe.plain p c (mk_mem_zipIdx_iff_getElem?.mp hAt) hDrops
    rw [ht] at hEq
    cases hEq

theorem InductionSafe.private_of_lost (hSafe : InductionSafe machine.resident r) (x : String)
    (hx : .symbol x ∈ r.lost) : machine.resident x = false :=
  hSafe.isPrivate x (hSafe.fresh_of_lost hx)

def SameBut (r : PtrRewrite) (e s : IRState (BitVec 64) M) : Prop :=
  AgreeBut (· ∈ r.lost) { e with pc := s.pc } s

theorem SameBut.symbol (hSafe : InductionSafe machine.resident r) (h : SameBut r e s)
    (hx : x ∉ r.freshNames) :
    machine.value e (.symbol x) = machine.value s (.symbol x) := by
  have hValue : machine.value { e with pc := s.pc } (.symbol x) = machine.value s (.symbol x) :=
    h.value fun hLost => hx (hSafe.fresh_of_lost hLost)
  rwa [machine.value_pc] at hValue

theorem SameBut.of_localsBut {names : List String} (h : SameBut r e s)
    (hBut : LocalsBut names e' e) (hNames : ∀ x ∈ names, x ∈ r.freshNames) : SameBut r e' s := by
  refine ⟨rfl, hBut.memory.trans h.memory, hBut.trace.trans h.trace, ?_, ?_⟩
  · intro t hLive
    exact (congrFun hBut.temps t).trans (h.temps t hLive)
  · intro x hLive
    refine (hBut.locals x ?_).trans (h.locals x hLive)
    intro hx
    exact hLive (PtrRewrite.fresh_lost (hNames x hx))

/-- A symbol that is no float is copied as it is. -/
theorem compute_symbol {c : IRInstruction} {name : String} {v : BitVec 64} (hOp : c.op = .assign)
    (hLhs : c.lhs = .symbol name) (hFloat : c.isFloat = false)
    (hv : machine.value e (.symbol name) = some v) : machine.compute e c = some v := by
  have hMoved : machine.moved c v = v := by
    rw [Machine.moved, hFloat, if_neg Bool.false_ne_true, hLhs]
  rw [Machine.compute, hOp]
  rw [hLhs, hv, map_some, hMoved]

theorem performs_declare {dest : IROperand} {text : Option String}
    (hAt : code[e.pc]? = some { op := .declareLocal, dest, text }) :
    machine.Performs code e 1 [] e.next :=
  .one hAt rfl

/-- **The pointers are set to the bases.** -/
theorem setPointers_run (hSafe : InductionSafe machine.resident r) (hSame : SameBut r e s)
    (hBases : ∀ b ∈ r.bindings, (machine.value s (.symbol b.base)).isSome = true)
    (hBlock : BlockAt r.code e.pc (r.bindings.flatMap (setPointer r.instructions))) :
    ∃ e', machine.Performs r.code e (r.bindings.flatMap (setPointer r.instructions)).length [] e' ∧
      e'.pc = e.pc + (r.bindings.flatMap (setPointer r.instructions)).length ∧
      LocalsBut (r.bindings.map (·.ptr)) e' e ∧
      ∀ b ∈ r.bindings, ∃ v, machine.value s (.symbol b.base) = some v ∧
        e'.locals b.ptr = some v := by
  have hNodup := (nodup_cons.mp hSafe.distinct).2
  obtain ⟨e', hPerforms, hPc, hBut, hSet⟩ := bindings_run
    (fun b => (machine.value s (.symbol b.base)).getD 0) r.bindings hNodup e hBlock
    fun b hb e₁ hBlock₁ hBut₁ _ => by
      obtain ⟨v, hv⟩ := isSome_iff_exists.mp (hBases b hb)
      have hPtr : b.ptr ∈ r.freshNames := mem_cons_of_mem _ (mem_map_of_mem hb)
      have hBase : b.base ∉ r.freshNames :=
        hSafe.apart _ (mem_cons_of_mem _ (mem_map_of_mem hb))
      have hValue : machine.value e₁.next (.symbol b.base) = some v := by
        rw [machine.value_next, (hSame.of_localsBut hBut₁ fun x hx =>
          mem_cons_of_mem _ hx).symbol hSafe hBase, hv]
      have hFirst : machine.Performs r.code e₁ 1 [] e₁.next := performs_declare hBlock₁.head
      have hSecond := Machine.Performs.pure (s := e₁.next) hBlock₁.tail.head rfl
        (compute_symbol rfl rfl rfl hValue)
      rw [machine.write_private (hSafe.isPrivate _ hPtr)] at hSecond
      have hBoth := hFirst.trans hSecond
      rw [hv]
      exact hBoth
  refine ⟨e', hPerforms, hPc, hBut, ?_⟩
  intro b hb
  obtain ⟨v, hv⟩ := isSome_iff_exists.mp (hBases b hb)
  refine ⟨v, hv, ?_⟩
  rw [hSet b hb, hv]
  rfl

theorem signedBinary_shift (n : BitVec 64) : signedBinary "<<" n 2 = some (n <<< 2) := by
  simp [signedBinary]

theorem signedBinary_add (a b : BitVec 64) : signedBinary "+" a b = some (a + b) := by
  simp [signedBinary, wordBinary]

/-- The state with another value of one symbol and of one temp, `k` places further on. -/
def IRState.atEnd (e : IRState (BitVec 64) M) (x t : String) (v w : BitVec 64) (k : Nat) :
    IRState (BitVec 64) M :=
  { e with locals := Function.update e.locals x (some v)
           temps := Function.update e.temps t (some w), pc := e.pc + k }

theorem IRState.atEnd_spec (e : IRState (BitVec 64) M) (x t : String) (v w : BitVec 64) (k : Nat) :
    (e.atEnd x t v w k).pc = e.pc + k ∧ (e.atEnd x t v w k).memory = e.memory ∧
      (e.atEnd x t v w k).trace = e.trace ∧
      (∀ t', t' ≠ t → (e.atEnd x t v w k).temps t' = e.temps t') ∧
      (∀ x', x' ≠ x → (e.atEnd x t v w k).locals x' = e.locals x') ∧
      (e.atEnd x t v w k).locals x = some v :=
  ⟨rfl, rfl, rfl, fun _ hNe => Function.update_of_ne hNe _ _,
    fun _ hNe => Function.update_of_ne hNe _ _, Function.update_self _ _ _⟩

theorem setEnd_performs (hWords : SignedWords machine)
    {x bound base scale : String} {type : Option String} (hPrivate : machine.resident x = false)
    (hBound : bound ≠ x) {v n : BitVec 64} (hv : machine.value e (.symbol base) = some v)
    (hn : machine.value e (.symbol bound) = some n)
    (hBlock : BlockAt code e.pc [{ op := .declareLocal, dest := .symbol x, text := type },
       { op := .assign, dest := .symbol x, lhs := .symbol base },
       { op := .binary, text := some "<<", dest := .temp scale, lhs := .symbol bound, rhs := .int 2 },
       { op := .binary, text := some "+", dest := .symbol x, lhs := .symbol x
         rhs := .temp scale }]) :
    machine.Performs code e 4 [] (e.atEnd x scale (v + (n <<< 2)) (n <<< 2) 4) := by
  have hDeclare : machine.Performs code e 1 [] e.next := performs_declare hBlock.head
  have hAssign := Machine.Performs.pure (s := e.next) hBlock.tail.head rfl
    (compute_symbol rfl rfl rfl (show machine.value e.next (.symbol base) = some v from hv))
  rw [machine.write_private hPrivate] at hAssign
  obtain ⟨e₁, he₁⟩ : ∃ e₁ : IRState (BitVec 64) M, e₁ =
    { e with locals := Function.update e.locals x (some v), pc := e.pc + 2 } := ⟨_, rfl⟩
  have hFirst : machine.Performs code e 2 [] e₁ := he₁ ▸ hDeclare.trans hAssign
  have hAt₁ : code[e₁.pc]? = some { op := .binary, text := some "<<", dest := .temp scale
                                    lhs := .symbol bound, rhs := .int 2 } := by
    rw [he₁]
    exact hBlock.tail.tail.head
  have hScale : machine.Performs code e₁ 1 [] (machine.write e₁ (.temp scale) (n <<< 2)).next := by
    refine Machine.Performs.pure hAt₁ rfl ?_
    have hValue : machine.value e₁ (.symbol bound) = some n := by
      rw [← hn, he₁]
      simp only [Machine.value, Machine.symbolValue]
      rw [Function.update_of_ne hBound]
    rw [Machine.compute]
    rw [hValue, show machine.value e₁ (.int 2) = some 2 from congrArg some (hWords.int 2)]
    exact (hWords.operate (by decide) rfl n 2).trans (signedBinary_shift n)
  obtain ⟨e₂, he₂⟩ : ∃ e₂, e₂ = (machine.write e₁ (.temp scale) (n <<< 2)).next := ⟨_, rfl⟩
  rw [← he₂] at hScale
  have hAt₂ : code[e₂.pc]? = some { op := .binary, text := some "+", dest := .symbol x
                                    lhs := .symbol x, rhs := .temp scale } := by
    rw [he₂, he₁]
    exact hBlock.tail.tail.tail.head
  have hAdd : machine.Performs code e₂ 1 []
      (machine.write e₂ (.symbol x) (v + (n <<< 2))).next := by
    refine Machine.Performs.pure hAt₂ rfl ?_
    have hLeft : machine.value e₂ (.symbol x) = some v := by
      rw [machine.value_private hPrivate, he₂, he₁]
      exact Function.update_self _ _ _
    have hRight : machine.value e₂ (.temp scale) = some (n <<< 2) := by
      rw [he₂]
      exact Function.update_self _ _ _
    rw [Machine.compute]
    rw [hLeft, hRight]
    exact (hWords.plain rfl rfl v (n <<< 2)).trans (signedBinary_add v (n <<< 2))
  have hEnd : (machine.write e₂ (.symbol x) (v + (n <<< 2))).next =
      e.atEnd x scale (v + (n <<< 2)) (n <<< 2) 4 := by
    rw [machine.write_private hPrivate, he₂, he₁]
    simp [Machine.write, IRState.next, IRState.atEnd]
  rw [hEnd] at hAdd
  exact (hFirst.trans hScale).trans hAdd

section

variable (hWords : SignedWords machine) (hSafe : InductionSafe machine.resident r)
include hWords hSafe

/-- **The end pointer is set.** -/
theorem setEnd_run (hSame : SameBut r e s) (hFirst : r.bindings.head? = some b)
    {v n : BitVec 64} (hv : machine.value s (.symbol b.base) = some v)
    (hn : machine.value s (.symbol r.loop.bound) = some n)
    (hBlock : BlockAt r.code e.pc (setEnd r.instructions r.h r.loop.bound r.bindings)) :
    ∃ e', machine.Performs r.code e 4 [] e' ∧ e'.pc = e.pc + 4 ∧ SameBut r e' s ∧
      (∀ x, x ≠ endPtrOf r.h r.bindings → e'.locals x = e.locals x) ∧
      e'.locals (endPtrOf r.h r.bindings) = some (v + (n <<< 2)) := by
  have hEnd : endPtrOf r.h r.bindings ∈ r.freshNames := mem_cons_self
  have hMem : b ∈ r.bindings := mem_of_mem_head? hFirst
  have hBase : b.base ∉ r.freshNames :=
    hSafe.apart _ (mem_cons_of_mem _ (mem_map_of_mem hMem))
  have hBound : r.loop.bound ∉ r.freshNames := hSafe.apart _ mem_cons_self
  simp only [setEnd, hFirst, map_some, getD_some] at hBlock
  have hNe : r.loop.bound ≠ endPtrOf r.h r.bindings := by
    intro hEq
    exact hBound (hEq ▸ hEnd)
  have hPerforms := setEnd_performs hWords (hSafe.isPrivate _ hEnd) hNe
    ((hSame.symbol hSafe hBase).trans hv) ((hSame.symbol hSafe hBound).trans hn) hBlock
  obtain ⟨hPc, hMemory, hTrace, hTemps, hLocals, hSet⟩ := e.atEnd_spec (endPtrOf r.h r.bindings)
    (endScaleTemp r.h) (v + (n <<< 2)) (n <<< 2) 4
  generalize e.atEnd (endPtrOf r.h r.bindings) (endScaleTemp r.h) (v + (n <<< 2)) (n <<< 2) 4 = e'
    at hPerforms hPc hMemory hTrace hTemps hLocals hSet
  refine ⟨e', hPerforms, hPc, ?_, hLocals, hSet⟩
  have hScale : .temp (endScaleTemp r.h) ∈ r.lost := mem_append_left _ mem_cons_self
  have hLost : .symbol (endPtrOf r.h r.bindings) ∈ r.lost := PtrRewrite.fresh_lost hEnd
  refine ⟨rfl, hMemory.trans hSame.memory, hTrace.trans hSame.trace, ?_, ?_⟩
  · intro t hLive
    refine (hTemps t ?_).trans (hSame.temps t hLive)
    intro hEq
    rw [hEq] at hLive
    exact hLive hScale
  · intro x hLive
    refine (hLocals x ?_).trans (hSame.locals x hLive)
    intro hEq
    rw [hEq] at hLive
    exact hLive hLost

/-- **Before the loop the pointers are set.** -/
theorem prelude_run (hSome : r.bindings ≠ []) (hSame : SameBut r e s)
    (hEnters : EntersLoop machine r s)
    (hBlock : BlockAt r.code e.pc (inductionPrelude r.instructions r.h r.loop r.bindings)) :
    ∃ k e', machine.Performs r.code e k [] e' ∧
      e'.pc = e.pc + (inductionPrelude r.instructions r.h r.loop r.bindings).length ∧
      SameBut r e' s ∧ Tracks machine r s e' := by
  obtain ⟨hIv, hBoundSome, hBases⟩ := hEnters
  obtain ⟨n, hn⟩ := isSome_iff_exists.mp hBoundSome
  obtain ⟨b, hFirst⟩ : ∃ b, r.bindings.head? = some b :=
    ne_none_iff_exists'.mp (by simpa using hSome)
  obtain ⟨v, hv⟩ := isSome_iff_exists.mp (hBases b (mem_of_mem_head? hFirst))
  obtain ⟨e₁, hPerforms₁, hPc₁, hBut, hSet⟩ := setPointers_run hSafe hSame hBases hBlock.left
  have hSame₁ : SameBut r e₁ s := hSame.of_localsBut hBut fun x hx => mem_cons_of_mem _ hx
  have hBlock₁ : BlockAt r.code e₁.pc (setEnd r.instructions r.h r.loop.bound r.bindings) := by
    rw [hPc₁]
    exact hBlock.right
  obtain ⟨e₂, hPerforms₂, hPc₂, hSame₂, hOther, hEnd⟩ :=
    setEnd_run hWords hSafe hSame₁ hFirst hv hn hBlock₁
  refine ⟨_, e₂, hPerforms₁.trans hPerforms₂, ?_, hSame₂, ⟨⟨0, hIv, ?_⟩, ⟨n, hn, ?_⟩⟩⟩
  · rw [hPc₂, hPc₁, inductionPrelude, length_append, Nat.add_assoc]
    rfl
  · intro b' hb'
    obtain ⟨v', hv', hPtr⟩ := hSet b' hb'
    refine ⟨v', hv', ?_⟩
    have hNe : b'.ptr ≠ endPtrOf r.h r.bindings := by
      intro hEq
      exact (nodup_cons.mp hSafe.distinct).1 (hEq ▸ mem_map_of_mem hb')
    rw [hOther _ hNe, hPtr]
    simp
  · intro b' hb'
    obtain rfl := some.inj (hFirst.symm.trans hb')
    exact ⟨v, hv, hEnd⟩

/-- **At the increment the pointers are moved.** -/
theorem steps_run (old : PtrBaseBinding → BitVec 64)
    (hOld : ∀ b ∈ r.bindings, e.locals b.ptr = some (old b))
    (hBlock : BlockAt r.code e.pc (r.bindings.map stepPointer)) :
    ∃ e', machine.Performs r.code e r.bindings.length [] e' ∧
      e'.pc = e.pc + r.bindings.length ∧ LocalsBut (r.bindings.map (·.ptr)) e' e ∧
      ∀ b ∈ r.bindings, e'.locals b.ptr = some (old b + 4) := by
  have hNodup := (nodup_cons.mp hSafe.distinct).2
  have hLength : (r.bindings.flatMap fun b => [stepPointer b]).length = r.bindings.length := by
    rw [← map_eq_flatMap, length_map]
  rw [map_eq_flatMap] at hBlock
  have hRun := bindings_run (fun b => old b + 4) r.bindings hNodup e hBlock fun b hb e₁ hBlock₁ _ hSame => by
      have hPtr : b.ptr ∈ r.freshNames := mem_cons_of_mem _ (mem_map_of_mem hb)
      have hPrivate := hSafe.isPrivate _ hPtr
      have hCompute : machine.compute e₁ (stepPointer b) = some (old b + 4) := by
        rw [Machine.compute, stepPointer]
        rw [machine.value_private hPrivate, hSame, hOld b hb,
          show machine.value e₁ (.int 4) = some 4 from congrArg some (hWords.int 4)]
        exact (hWords.plain rfl rfl (old b) 4).trans (signedBinary_add _ _)
      have hOne := Machine.Performs.pure hBlock₁.head rfl hCompute
      rw [show (stepPointer b).dest = .symbol b.ptr from rfl,
        machine.write_private hPrivate] at hOne
      exact hOne
  rw [hLength] at hRun
  exact hRun

end

end Pointers

-- ---
-- One instruction
-- ---

variable {temp : String}

section Step

variable {s t e : IRState (BitVec 64) M} {c : IRInstruction}

theorem accessesAt_congr {V : Type} {machine : Machine V M} {e s : IRState V M}
    (hReads : ∀ operand ∈ c.reads, machine.value e operand = machine.value s operand) :
    machine.accessesAt e c = machine.accessesAt s c := by
  unfold Machine.accessesAt
  cases hOp : c.op <;> try rfl
  case load =>
    rw [IRInstruction.reads, hOp] at hReads
    rw [hReads _ mem_cons_self, hReads _ (mem_cons_of_mem _ mem_cons_self)]
  case store =>
    rw [IRInstruction.reads, hOp] at hReads
    rw [hReads _ mem_cons_self, hReads _ (mem_cons_of_mem _ mem_cons_self),
      hReads _ (mem_cons_of_mem _ (mem_cons_of_mem _ mem_cons_self))]

theorem pointer_value (hSafe : InductionSafe machine.resident r) (hSteps : StepsPointer machine r s)
    (hHolds : r.Holds s.pc) (hTracks : Tracks machine r s e)
    (hAccess : r.accessAt s.pc = some (temp, b)) {a : BitVec 64}
    (ha : machine.value s (.temp temp) = some a) : machine.value e (.symbol b.ptr) = some a := by
  have hMem : b ∈ r.bindings := by
    unfold PtrRewrite.accessAt at hAccess
    simp only [bind_eq_bind, bind_eq_some_iff] at hAccess
    obtain ⟨_, _, _, _, b', hb', hEq⟩ := hAccess
    cases hEq
    exact mem_of_find?_eq_some hb'
  obtain ⟨i, hi, hPtrs⟩ := hTracks.index
  obtain ⟨v, hv, hPtr⟩ := hPtrs b hMem
  have hAddress := hSteps.address hHolds.1 _ hAccess
  simp only [elementAddress, hv, hi, ha] at hAddress
  rw [machine.value_private (hSafe.isPrivate _ (mem_cons_of_mem _ (mem_map_of_mem hMem))), hPtr]
  exact hAddress.symm

theorem load_agrees {ptr : String} (hOp : c.op = .load) (hLhs : c.lhs = .temp temp)
    (hSame : SameBut r e s) (hRhs : c.rhs ∉ r.lost)
    (hPtr : ∀ a, machine.value s (.temp temp) = some a → machine.value e (.symbol ptr) = some a)
    (hStep : machine.execute code s c = .running t) :
    ∃ e₁, machine.execute code { e with pc := s.pc } { c with lhs := .symbol ptr } = .running e₁ ∧
      AgreeBut (· ∈ r.lost) e₁ t ∧
      machine.accessesAt { e with pc := s.pc } { c with lhs := .symbol ptr } =
        machine.accessesAt s c := by
  have hSize : machine.value { e with pc := s.pc } c.rhs = machine.value s c.rhs := hSame.value hRhs
  rw [Machine.execute, hOp] at hStep
  dsimp only at hStep
  rw [hLhs] at hStep
  split at hStep
  · rename_i a size ha hs
    obtain ⟨v, hv, rfl⟩ := finish_running hStep
    have hPtr' : machine.value { e with pc := s.pc } (.symbol ptr) = some a := by
      exact hPtr a ha
    refine ⟨(machine.write { e with pc := s.pc } c.dest v).next, ?_, (hSame.write _ _).next, ?_⟩
    · rw [Machine.execute]
      rw [hOp]
      rw [hPtr', hSize, hs, show ({ e with pc := s.pc } : IRState (BitVec 64) M).memory = s.memory
        from hSame.memory]
      exact congrArg (machine.finish _ c.dest) hv
    · unfold Machine.accessesAt
      rw [hOp]
      rw [hPtr', hSize, hs, hLhs, ha]
  · cases hStep

theorem store_agrees {ptr : String} (hOp : c.op = .store) (hDest : c.dest = .temp temp)
    (hSame : SameBut r e s) (hLhs : c.lhs ∉ r.lost) (hRhs : c.rhs ∉ r.lost)
    (hPtr : ∀ a, machine.value s (.temp temp) = some a → machine.value e (.symbol ptr) = some a)
    (hStep : machine.execute code s c = .running t) :
    ∃ e₁, machine.execute code { e with pc := s.pc } { c with dest := .symbol ptr } =
        .running e₁ ∧ AgreeBut (· ∈ r.lost) e₁ t ∧
      machine.accessesAt { e with pc := s.pc } { c with dest := .symbol ptr } =
        machine.accessesAt s c := by
  have hValue : machine.value { e with pc := s.pc } c.lhs = machine.value s c.lhs :=
    hSame.value hLhs
  have hSize : machine.value { e with pc := s.pc } c.rhs = machine.value s c.rhs := hSame.value hRhs
  rw [Machine.execute, hOp] at hStep
  dsimp only at hStep
  rw [hDest] at hStep
  split at hStep
  · rename_i a v size ha hv hs
    split at hStep
    · cases hStep
    · rename_i memory hMemory
      cases hStep
      have hPtr' : machine.value { e with pc := s.pc } (.symbol ptr) = some a := by
        exact hPtr a ha
      refine ⟨({ e with pc := s.pc, memory } : IRState (BitVec 64) M).next, ?_, ?_, ?_⟩
      · rw [Machine.execute]
        rw [hOp]
        rw [hPtr', hValue, hSize, hv, hs,
          show ({ e with pc := s.pc } : IRState (BitVec 64) M).memory = s.memory from hSame.memory]
        unfold IRInstruction.floatWidth at hMemory ⊢
        dsimp only
        rw [hMemory]
      · exact ⟨rfl, rfl, hSame.trace, hSame.temps, hSame.locals⟩
      · unfold Machine.accessesAt
        rw [hPtr', hValue, hSize, hv, hs, hDest, ha]
  · cases hStep

theorem guard_agrees (hWords : SignedWords machine) (hSafe : InductionSafe machine.resident r)
    (hOp : c.op = .binary) (hFloat : c.isFloat = false) (hText : c.text = some "<")
    (hLhs : c.lhs = .symbol r.loop.iv) (hRhs : c.rhs = .symbol r.loop.bound) (hSame : SameBut r e s)
    (hFirst : r.bindings.head? = some b) (hTracks : Tracks machine r s e)
    (hGuard : GuardAgrees machine r s) (hStep : machine.execute code s c = .running t) :
    ∃ e₁, machine.execute code { e with pc := s.pc }
        { c with lhs := .symbol b.ptr, rhs := .symbol (endPtrOf r.h r.bindings) } = .running e₁ ∧
      AgreeBut (· ∈ r.lost) e₁ t ∧
      machine.accessesAt { e with pc := s.pc }
        { c with lhs := .symbol b.ptr, rhs := .symbol (endPtrOf r.h r.bindings) } =
        machine.accessesAt s c := by
  obtain ⟨i, hi, hPtrs⟩ := hTracks.index
  obtain ⟨n, hn, hLast⟩ := hTracks.last
  have hMem : b ∈ r.bindings := mem_of_mem_head? hFirst
  obtain ⟨v, hv, hPtr⟩ := hPtrs b hMem
  obtain ⟨v', hv', hEnd⟩ := hLast b hFirst
  obtain rfl := some.inj (hv.symm.trans hv')
  have hWidth : c.floatWidth = 0 := by rw [IRInstruction.floatWidth, hFloat]; rfl
  have hLess : ∀ x y : BitVec 64, signedBinary "<" x y = some (if x.slt y then 1 else 0) := by
    intro x y
    simp [signedBinary]
  have hOld : machine.compute s c = some (if i.slt n then 1 else 0) := by
    rw [Machine.compute, hOp]
    rw [hText, hLhs, hRhs, hi, hn]
    exact (hWords.operate (by decide) hWidth i n).trans (hLess i n)
  have hPtrValue : machine.value { e with pc := s.pc } (.symbol b.ptr) = some (v + (i <<< 2)) := by
    rw [machine.value_pc, machine.value_private
      (hSafe.isPrivate _ (mem_cons_of_mem _ (mem_map_of_mem hMem))), hPtr]
  have hEndValue : machine.value { e with pc := s.pc } (.symbol (endPtrOf r.h r.bindings)) =
      some (v + (n <<< 2)) := by
    rw [machine.value_pc, machine.value_private (hSafe.isPrivate _ mem_cons_self), hEnd]
  have hNew : machine.compute { e with pc := s.pc }
      { c with lhs := .symbol b.ptr, rhs := .symbol (endPtrOf r.h r.bindings) } =
      some (if i.slt n then 1 else 0) := by
    rw [← hGuard i hi n hn b hFirst v hv, Machine.compute]
    rw [hOp]
    rw [hText, hPtrValue, hEndValue]
    exact (hWords.operate (by decide) hWidth _ _).trans (hLess _ _)
  have hPure : c.op.isPure = true := by rw [hOp]; rfl
  rw [execute_pure hPure, hOld] at hStep
  cases hStep
  refine ⟨(machine.write { e with pc := s.pc } c.dest (if i.slt n then 1 else 0)).next, ?_,
    (hSame.write _ _).next, ?_⟩
  · rw [execute_pure (by exact hPure), hNew]
    rfl
  · unfold Machine.accessesAt
    rw [hOp]

section

variable (hWords : SignedWords machine) (hSafe : InductionSafe machine.resident r)
  (hIs : IsInductionLoop r.instructions r.h r.loop) (hc : r.instructions[s.pc]? = some c)
  (hKept : r.drops s.pc c = false)
include hWords hSafe hIs hc hKept

/-- **What is made of an instruction does what it did.** -/
theorem rewritten_agrees (hNot : s.pc ≠ r.loop.incrementIndex) (hSteps : StepsPointer machine r s)
    (hSame : SameBut r e s) (hTracks : r.Holds s.pc → Tracks machine r s e)
    (hStep : machine.execute r.instructions s c = .running t) :
    ∃ e₁, machine.execute r.instructions { e with pc := s.pc }
        (if s.pc < r.h then c else r.rewrite c) = .running e₁ ∧ AgreeBut (· ∈ r.lost) e₁ t ∧
      machine.accessesAt { e with pc := s.pc } (if s.pc < r.h then c else r.rewrite c) =
        machine.accessesAt s c := by
  have hReads := hSafe.unread s.pc c hc hKept
  unfold PtrRewrite.keptReads at hReads
  by_cases hPlain : s.pc < r.h ∨ r.rewrite c = c
  · -- the instruction is the same, and its operands have the values they had
    have hEq : (if s.pc < r.h then c else r.rewrite c) = c := by
      split
      · rfl
      · exact hPlain.resolve_left ‹_›
    rw [hEq]
    rw [if_pos (hPlain.imp_right Or.inr)] at hReads
    have hValues : ∀ operand ∈ c.reads,
        machine.value { e with pc := s.pc } operand = machine.value s operand :=
      fun operand hMem => hSame.value (hReads operand hMem)
    have hOut : Outcome.Related (AgreeBut (· ∈ r.lost))
        (machine.execute r.instructions { e with pc := s.pc } c)
        (machine.execute r.instructions s c) :=
      execute_related (agreeBut_respects machine (· ∈ r.lost)) hSame
        (hSafe.unused c (mem_of_getElem? hc)).1 hValues
    rw [hStep] at hOut
    generalize hNew : machine.execute r.instructions { e with pc := s.pc } c = outcome at hOut
    cases hOut with
    | running hAgree => exact ⟨_, rfl, hAgree, accessesAt_congr hValues⟩
  · rw [not_or, Nat.not_lt] at hPlain
    obtain ⟨hLe, hNew⟩ := hPlain
    rw [if_neg (show ¬ (s.pc < r.h ∨ s.pc = r.loop.incrementIndex ∨ r.rewrite c = c) by
      rintro (hLt | hEq | hEq)
      · omega
      · exact hNot hEq
      · exact hNew hEq)] at hReads
    rw [if_neg (by omega)]
    have hInside := hSafe.inside s.pc c hc hLe hNot hNew
    have hAfter' := hIs.afterCompare
    have hAfter'' := hIs.afterBranch
    have hBefore := hIs.beforeJump
    have hHolds : r.Holds s.pc := by
      refine ⟨hLe, ?_⟩
      rcases hInside with hEq | hBody
      · omega
      · omega
    have hTracks := hTracks hHolds
    obtain hId | ⟨temp, b, hOp, hLhs, hBound, hIs'⟩ | ⟨temp, b, hOp, hDest, hBound, hIs'⟩ |
      ⟨b, hFirst, hOp, hIs'⟩ := ptrRewrite_cases r.h r.loop.iv r.bindings c
    · exact absurd hId hNew
    · rw [if_pos hOp] at hReads
      have hAccess : r.accessAt s.pc = some (temp, b) := by
        simp [PtrRewrite.accessAt, hc, addressTemp, hOp, hLhs, hBound]
      rw [PtrRewrite.rewrite, hIs']
      exact load_agrees hOp hLhs hSame (hReads _ mem_cons_self)
        (fun a ha => pointer_value hSafe hSteps hHolds hTracks hAccess ha) hStep
    · rw [if_neg (by rw [hOp]; exact nofun), if_pos hOp] at hReads
      have hAccess : r.accessAt s.pc = some (temp, b) := by
        simp [PtrRewrite.accessAt, hc, addressTemp, hOp, hDest, hBound]
      rw [PtrRewrite.rewrite, hIs']
      exact store_agrees hOp hDest hSame (hReads _ mem_cons_self)
        (hReads _ (mem_cons_of_mem _ mem_cons_self))
        (fun a ha => pointer_value hSafe hSteps hHolds hTracks hAccess ha) hStep
    · have hPlace : s.pc = r.loop.compareIndex := hInside.resolve_right fun hBody => hBody.2.2 hOp
      obtain ⟨c', hc', -, hFloat, hText, hLhs, hRhs⟩ := hIs.compareAt
      rw [← hPlace, hc] at hc'
      cases hc'
      rw [PtrRewrite.rewrite, hIs']
      exact guard_agrees hWords hSafe hOp hFloat hText hLhs hRhs hSame hFirst hTracks
        (hSteps.guard hPlace) hStep

structure InductionRel (machine : Machine (BitVec 64) M) (r : PtrRewrite)
    (s e : IRState (BitVec 64) M) : Prop where
  same : SameBut r e s
  place : e.pc = r.landing s.pc
  tracks : r.Holds s.pc → Tracks machine r s e

theorem plain_step (hNot : s.pc ≠ r.loop.incrementIndex) (hSteps : StepsPointer machine r s)
    (hRel : InductionRel machine r s e) (hStep : machine.execute r.instructions s c = .running t) :
    ∃ e₂, machine.Performs r.code e 1 (machine.accessesAt s c) e₂ ∧ SameBut r e₂ t ∧
      (∀ x ∈ r.freshNames, e₂.locals x = e.locals x) ∧
      ((t.pc = s.pc + 1 ∧ e₂.pc = placeOf r.emit r.instructions (s.pc + 1)) ∨
        (e₂.pc = r.landing t.pc ∧ c.mayJump = true ∧ ∃ name, c.text = some name ∧
          labelIndex r.instructions name = some t.pc)) := by
  obtain ⟨hAt, hNext⟩ := PtrRewrite.at_plain hIs hc hNot hKept
  obtain ⟨e₁, hExecute, hAgree, hAccesses⟩ := rewritten_agrees hWords hSafe hIs hc hKept hNot hSteps
    hRel.same hRel.tracks hStep
  generalize hc' : (if s.pc < r.h then c else r.rewrite c) = c' at hAt hExecute hAccesses
  have hOp : c'.op = c.op := by
    rw [← hc']
    split
    · rfl
    · exact ptrRewrite_op
  have hText : c'.text = c.text := by
    rw [← hc']
    split
    · rfl
    · exact ptrRewrite_text
  have hWrites : c'.writes = c.writes := by
    rw [← hc']
    split
    · rfl
    · exact ptrRewrite_writes
  have hJump : c'.mayJump = c.mayJump := by
    rw [IRInstruction.mayJump, IRInstruction.mayJump, IRInstruction.isBranch,
      IRInstruction.isBranch, hOp]
  rw [← hRel.place] at hAt
  have hMoved : ({ { e with pc := s.pc } with pc := e.pc } : IRState (BitVec 64) M) = e := rfl
  have hCases := @execute_moved_cases _ _ machine c' r.instructions r.code
    { e with pc := s.pc } e.pc
  rw [hMoved, hExecute] at hCases
  -- whatever it does, it does not write the pointers
  have hFresh : ∀ e₂, machine.execute r.code e c' = .running e₂ →
      ∀ x ∈ r.freshNames, e₂.locals x = e.locals x := by
    intro e₂ hRun x hx
    have hUnused := hSafe.unused c (mem_of_getElem? hc)
    have hPrivate := hSafe.isPrivate x hx
    have hKeeps : Keeps machine.resident c' (.symbol x) := by
      refine ⟨hWrites ▸ hUnused.2 x hx, hOp ▸ hUnused.1, ?_⟩
      intro hRes
      rw [hPrivate] at hRes
      cases hRes
    have hValue := execute_keeps hRun hKeeps
    rwa [machine.value_private hPrivate, machine.value_private hPrivate] at hValue
  have hPerforms : ∀ e₂, machine.execute r.code e c' = .running e₂ →
      machine.Performs r.code e 1 (machine.accessesAt s c) e₂ := by
    intro e₂ hRun
    rw [← hAccesses, show machine.accessesAt { e with pc := s.pc } c' = machine.accessesAt e c' from
      accessesAt_congr fun operand _ => machine.value_pc e s.pc operand]
    exact .one hAt hRun
  rcases hCases with ⟨hFalls, hRun⟩ | ⟨hMay, hJumps, hRun⟩
  · have hPc : t.pc = s.pc + 1 := hAgree.pc.symm.trans (hFalls e₁ rfl)
    refine ⟨{ e₁ with pc := e.pc + 1 }, hPerforms _ hRun, ?_, hFresh _ hRun, Or.inl ⟨hPc, ?_⟩⟩
    · exact ⟨rfl, hAgree.memory, hAgree.trace, hAgree.temps, hAgree.locals⟩
    · rw [hNext, hRel.place]
  · obtain ⟨name, q, hName, hLabel, hTo⟩ := jumpTo_running hJumps.symm
    have hq : t.pc = q := by
      rw [← hAgree.pc, hTo]
    have hNew : labelIndex r.code name = some (r.landing q) := by
      rw [PtrRewrite.labelIndex_code hSafe hIs, hLabel]
      rfl
    have hRun' : machine.execute r.code e c' = .running { e with pc := r.landing q } := by
      rw [hRun, hName, jumpTo, hNew]
    refine ⟨_, hPerforms _ hRun', ?_, hFresh _ hRun', Or.inr ⟨by rw [hq], hJump ▸ hMay, name,
      hText ▸ hName, hq ▸ hLabel⟩⟩
    rw [hTo] at hAgree
    exact ⟨rfl, hAgree.memory, hAgree.trace, hAgree.temps, hAgree.locals⟩

end

theorem dropped_step_stays (hSafe : InductionSafe machine.resident r)
    (hIs : IsInductionLoop r.instructions r.h r.loop) (hc : r.instructions[s.pc]? = some c)
    (hDrops : r.drops s.pc c = true)
    (hKept : r.Holds s.pc → r.Holds t.pc → KeepsLoop machine r s t)
    (hRel : InductionRel machine r s e)
    (hStep : machine.execute r.instructions s c = .running t) :
    InductionRel machine r t e ∧ t.pc = s.pc + 1 := by
  obtain ⟨hNot, hLow, hHigh⟩ := PtrRewrite.drops_inside hDrops
  obtain ⟨hPure, -⟩ := hSafe.plain s.pc c hc hDrops
  have hAfter := hIs.afterHeader
  have hAfter' := hIs.afterCompare
  rw [execute_pure hPure] at hStep
  obtain ⟨v, -, rfl⟩ := finish_running hStep
  have hPc : (machine.write s c.dest v).next.pc = s.pc + 1 := by
    rw [IRState.next, Machine.write_pc]
  have hHolds : r.Holds s.pc := ⟨by omega, by omega⟩
  have hHolds' : r.Holds (machine.write s c.dest v).next.pc := by
    exact ⟨by omega, by omega⟩
  have hDead : AgreeBut (· ∈ r.lost) { e with pc := s.pc } (machine.write s c.dest v) :=
    hRel.same.write_dead (PtrRewrite.dropped_lost hc hDrops)
      (fun x hx => hSafe.private_of_lost x hx) v
  obtain ⟨hIv, hBound, hBases⟩ := hKept hHolds hHolds'
  refine ⟨⟨⟨rfl, hDead.memory, hDead.trace, hDead.temps, hDead.locals⟩, ?_, fun _ => ?_⟩, hPc⟩
  · rw [hPc, PtrRewrite.landing_of_ne (by omega), PtrRewrite.at_dropped hIs hc hDrops, hRel.place,
      PtrRewrite.landing_of_ne (by omega)]
  · exact (hRel.tracks hHolds).kept (hIv hNot) hBound hBases fun _ _ => rfl

section

variable (hWords : SignedWords machine) (hSafe : InductionSafe machine.resident r)
  (hIs : IsInductionLoop r.instructions r.h r.loop)
include hWords hSafe hIs

theorem increment_step (hc : r.instructions[s.pc]? = some c) (hPlace : s.pc = r.loop.incrementIndex)
    (hKept : r.Holds s.pc → r.Holds t.pc → KeepsLoop machine r s t)
    (hCounted : ∀ i ∈ machine.value s (.symbol r.loop.iv),
      machine.value t (.symbol r.loop.iv) = some (i + 1))
    (hRel : InductionRel machine r s e) (hStep : machine.execute r.instructions s c = .running t) :
    ∃ e', machine.Performs r.code e (r.bindings.length + 1) (machine.accessesAt s c) e' ∧
      InductionRel machine r t e' := by
  have hAfter := hIs.afterHeader
  have hAfter' := hIs.afterCompare
  have hAfter'' := hIs.afterBranch
  have hBefore := hIs.beforeJump
  have hHolds : r.Holds s.pc := ⟨by omega, by omega⟩
  obtain ⟨hBlock, hNext⟩ := PtrRewrite.at_increment hIs (hPlace ▸ hc)
  obtain ⟨c', hc', hIncrement⟩ := hIs.incrementAt
  rw [← hPlace, hc] at hc'
  cases hc'
  obtain ⟨hOp, -, -, hDest, hLhs, hRhs⟩ := isUnitIncrement_spec hIncrement
  have hPure : c.op.isPure = true := by rw [hOp]; rfl
  have hNone : ∀ q : IRState (BitVec 64) M, machine.accessesAt q c = [] := by
    intro q
    rw [Machine.accessesAt, hOp]
  -- the index is not one of the pointers
  have hIvFresh : r.loop.iv ∉ r.freshNames := by
    intro hMem
    have hDrops : r.drops s.pc c = false := by
      simp [PtrRewrite.drops, dropsAt, hPlace]
    refine hSafe.unread s.pc c hc hDrops (.symbol r.loop.iv) ?_ (PtrRewrite.fresh_lost hMem)
    rw [PtrRewrite.keptReads, if_pos (Or.inr (Or.inl hPlace)), IRInstruction.reads, hOp, hLhs]
    exact mem_cons_self
  obtain ⟨i, hi, hPtrs⟩ := (hRel.tracks hHolds).index
  obtain ⟨n, hn, hLast⟩ := (hRel.tracks hHolds).last
  have hOldPc : e.pc = placeOf r.emit r.instructions r.loop.incrementIndex := by
    rw [hRel.place, PtrRewrite.landing_of_ne (by omega), hPlace]
  rw [← hOldPc] at hBlock hNext
  obtain ⟨e₁, hPerforms, hPc₁, hBut, hMoved⟩ := steps_run hWords hSafe
    (fun b => (e.locals b.ptr).getD 0)
    (fun b hb => by
      obtain ⟨v, -, hPtr⟩ := hPtrs b hb
      rw [hPtr]
      rfl) hBlock.left
  have hSame₁ : SameBut r e₁ s :=
    hRel.same.of_localsBut hBut fun x hx => mem_cons_of_mem _ hx
  have hi₁ : machine.value e₁ (.symbol r.loop.iv) = some i :=
    (hSame₁.symbol hSafe hIvFresh).trans hi
  have hAt : r.code[e₁.pc]? = some c := by
    have hHead := hBlock.right.head
    rwa [length_map, ← hPc₁] at hHead
  rw [execute_pure hPure, hDest] at hStep
  obtain ⟨w, hw, rfl⟩ := finish_running hStep
  -- the sum is the same on both sides, whatever the index keeps of it
  have hSum : machine.compute e₁ c = some w := by
    rw [← hw, Machine.compute, Machine.compute, hOp]
    rw [hLhs, hRhs, hi₁, hi]
    rfl
  have hLastStep := Machine.Performs.pure hAt hPure hSum
  rw [hDest] at hLastStep
  have hPc : (machine.write s (.symbol r.loop.iv) w).next.pc = s.pc + 1 := by
    rw [IRState.next, Machine.write_pc]
  have hHolds' : r.Holds (machine.write s (.symbol r.loop.iv) w).next.pc := by
    exact ⟨by omega, by omega⟩
  obtain ⟨-, hBound, hBases⟩ := hKept hHolds hHolds'
  -- writing the index does not touch the pointers
  have hLocals : ∀ x ∈ r.freshNames,
      (machine.write e₁ (.symbol r.loop.iv) w).next.locals x = e₁.locals x := by
    intro x hx
    refine Machine.locals_write_of_ne ?_
    rintro rfl
    exact hIvFresh hx
  refine ⟨(machine.write e₁ (.symbol r.loop.iv) w).next, ?_, ?_, ?_,
    fun _ => ⟨⟨i + 1, hCounted i hi, ?_⟩, ⟨n, hBound.trans hn, ?_⟩⟩⟩
  · rw [hNone]
    exact hPerforms.trans hLastStep
  · have hWrite : AgreeBut (· ∈ r.lost) (machine.write { e₁ with pc := s.pc } (.symbol r.loop.iv) w)
        (machine.write s (.symbol r.loop.iv) w) := hSame₁.write _ _
    rw [machine.write_pc_set] at hWrite
    exact ⟨rfl, hWrite.memory, hWrite.trace, hWrite.temps, hWrite.locals⟩
  · rw [hPc, PtrRewrite.landing_of_ne (by omega), hPlace, hNext, IRState.next, Machine.write_pc,
      hPc₁]
  · intro b hb
    obtain ⟨v, hv, hPtr⟩ := hPtrs b hb
    refine ⟨v, (hBases b hb).trans hv, ?_⟩
    rw [hLocals _ (mem_cons_of_mem _ (mem_map_of_mem hb)), hMoved b hb, hPtr]
    exact congrArg some (address_succ v i)
  · intro b hb
    obtain ⟨v, hv, hEnd⟩ := hLast b hb
    refine ⟨v, (hBases b (mem_of_mem_head? hb)).trans hv, ?_⟩
    rw [hLocals _ mem_cons_self, hBut.locals _ (nodup_cons.mp hSafe.distinct).1, hEnd]

/-- **What the new function does for one step of the old one.** -/
theorem induction_step (hSome : r.bindings ≠ []) (hSteps : StepsPointer machine r s)
    (hRel : InductionRel machine r s e) (hc : r.instructions[s.pc]? = some c)
    (hStep : machine.execute r.instructions s c = .running t) :
    ∃ k e', machine.Performs r.code e k (machine.accessesAt s c) e' ∧ InductionRel machine r t e' ∧
      (k = 0 → t.pc = s.pc + 1) := by
  have hNext : t ∈ nextState? machine r.instructions s := by
    rw [nextState?, step_at hc, hStep]
    rfl
  have hKept : r.Holds s.pc → r.Holds t.pc → KeepsLoop machine r s t :=
    fun hHolds hHolds' => hSteps.kept hHolds t hNext hHolds'
  by_cases hPlace : s.pc = r.loop.incrementIndex
  · have hCounted := fun i hi => hSteps.counted hPlace i hi t hNext
    obtain ⟨e', hPerforms, hRel'⟩ :=
      increment_step hWords hSafe hIs hc hPlace hKept hCounted hRel hStep
    exact ⟨_, e', hPerforms, hRel', nofun⟩
  cases hDrops : r.drops s.pc c with
  | true =>
    obtain ⟨hRel', hPc⟩ := dropped_step_stays hSafe hIs hc hDrops hKept hRel hStep
    have hPure := (hSafe.plain s.pc c hc hDrops).1
    have hNone : machine.accessesAt s c = [] := by
      rw [Machine.accessesAt]
      cases hCase : c.op <;> rw [hCase] at hPure <;> first | rfl | exact absurd hPure (by decide)
    exact ⟨0, e, hNone ▸ .start, hRel', fun _ => hPc⟩
  | false =>
    obtain ⟨e₂, hPerforms, hSame, hFresh, hWhere⟩ :=
      plain_step hWords hSafe hIs hc hDrops hPlace hSteps hRel hStep
    have hTracks : r.Holds s.pc → r.Holds t.pc → Tracks machine r t e₂ := by
      intro hHolds hHolds'
      obtain ⟨hIv, hBound, hBases⟩ := hKept hHolds hHolds'
      exact (hRel.tracks hHolds).kept (hIv hPlace) hBound hBases hFresh
    rcases hWhere with ⟨hFalls, hAt⟩ | ⟨hAt, hMay, name, hName, hLabel⟩
    · by_cases hHeader : t.pc = r.h
      · -- the loop is entered
        have hOutside : ¬ r.Holds s.pc := fun hHolds => by
          have := hHolds.1
          omega
        have hBlock : BlockAt r.code e₂.pc
            (inductionPrelude r.instructions r.h r.loop r.bindings) := by
          rw [hAt, ← hFalls, hHeader]
          exact PtrRewrite.at_header hIs
        obtain ⟨k, e₃, hPrelude, hPc, hSame', hTracks'⟩ := prelude_run hWords hSafe hSome hSame
          (hSteps.entered hOutside t hNext hHeader) hBlock
        refine ⟨1 + k, e₃, append_nil (machine.accessesAt s c) ▸ hPerforms.trans hPrelude,
          ⟨hSame', ?_, fun _ => hTracks'⟩, by omega⟩
        rw [hPc, hAt, ← hFalls, hHeader, PtrRewrite.landing, if_pos rfl]
      · refine ⟨1, e₂, hPerforms, ⟨hSame, ?_, fun hHolds' => hTracks ⟨?_, ?_⟩ hHolds'⟩, by omega⟩
        · rw [PtrRewrite.landing_of_ne hHeader, hFalls, hAt]
        · have := hHolds'.1
          omega
        · have := hHolds'.2
          omega
    · refine ⟨1, e₂, hPerforms, ⟨hSame, hAt, fun hHolds' => ?_⟩, by omega⟩
      by_cases hHolds : r.Holds s.pc
      · exact hTracks hHolds hHolds'
      · exact absurd hHolds' (hSafe.entered s.pc c name t.pc hc hHolds hMay hName hLabel)

end

end Step

-- ---
-- Whole runs
-- ---

section Runs

variable {s e final : IRState (BitVec 64) M} {value : Option (BitVec 64)}

theorem return_agrees (hSafe : InductionSafe machine.resident r)
    (hIs : IsInductionLoop r.instructions r.h r.loop) (hRel : InductionRel machine r s e)
    (hReturn : machine.step r.instructions s = .returned value final) :
    ∃ final', machine.step r.code e = .returned value final' ∧ SameBut r final' final := by
  cases hc : r.instructions[s.pc]? with
  | none =>
    have hNe : s.pc ≠ r.h := by
      intro hEq
      have := hIs.headerAt
      have := getElem?_eq_none_iff.mp hc
      omega
    rw [Machine.step, hc] at hReturn
    cases hReturn
    have hEnd : r.code[e.pc]? = none := by
      rw [hRel.place, PtrRewrite.landing_of_ne hNe, PtrRewrite.code_eq hIs]
      exact expanded_end hc
    refine ⟨e, ?_, hRel.same⟩
    rw [Machine.step, hEnd]
  | some c =>
    rw [step_at hc] at hReturn
    have hOp := (execute_returned hReturn).1
    have hNot : s.pc ≠ r.loop.incrementIndex := by
      intro hEq
      obtain ⟨c', hc', hIncrement⟩ := hIs.incrementAt
      rw [← hEq, hc] at hc'
      cases hc'
      rw [(isUnitIncrement_spec hIncrement).1] at hOp
      cases hOp
    have hKept : r.drops s.pc c = false := by
      by_contra hDrops
      have hPure := (hSafe.plain s.pc c hc (by simpa using hDrops)).1
      rw [hOp] at hPure
      cases hPure
    have hRewrite : r.rewrite c = c := by
      obtain hId | ⟨_, _, hCase, -⟩ | ⟨_, _, hCase, -⟩ | ⟨_, -, hCase, -⟩ :=
        ptrRewrite_cases r.h r.loop.iv r.bindings c
      · exact hId
      all_goals
        rw [hOp] at hCase
        cases hCase
    obtain ⟨hAt, -⟩ := PtrRewrite.at_plain hIs hc hNot hKept
    rw [hRewrite, ite_self, ← hRel.place] at hAt
    have hReads := hSafe.unread s.pc c hc hKept
    rw [PtrRewrite.keptReads, if_pos (Or.inr (Or.inr hRewrite))] at hReads
    have hOut : Outcome.Related (AgreeBut (· ∈ r.lost))
        (machine.execute r.instructions { e with pc := s.pc } c)
        (machine.execute r.instructions s c) :=
      execute_related (agreeBut_respects machine (· ∈ r.lost)) hRel.same
        (hSafe.unused c (mem_of_getElem? hc)).1
        fun operand hMem => hRel.same.value (hReads operand hMem)
    have hMoved : machine.execute r.code { { e with pc := s.pc } with pc := e.pc } c = _ :=
      execute_moved (by simp [IRInstruction.mayJump, IRInstruction.isBranch, hOp])
        r.instructions r.code { e with pc := s.pc } e.pc
    rw [hReturn] at hOut
    generalize machine.execute r.instructions { e with pc := s.pc } c = outcome at hOut hMoved
    cases hOut with
    | returned hAgree =>
      refine ⟨_, (step_at hAt).trans hMoved, ?_⟩
      exact ⟨rfl, hAgree.memory, hAgree.trace, hAgree.temps, hAgree.locals⟩

/-- **The new function does what the old one does**: the same loads and stores in the same order,
the same calls, the same memory, the same values of all symbols but those that it has of its own,
and the same result. -/
structure SameAccesses (machine : Machine (BitVec 64) M) (old new : List IRInstruction)
    (own : List String) (start : IRState (BitVec 64) M) : Prop where
  runs : ∀ n accesses s, machine.Performs old start n accesses s →
    ∃ m e, machine.Performs new start m accesses e ∧ e.memory = s.memory ∧ e.trace = s.trace ∧
      ∀ x, x ∉ own → machine.value e (.symbol x) = machine.value s (.symbol x)
  returns : ∀ n accesses s value final, machine.Performs old start n accesses s →
    machine.step old s = .returned value final →
    ∃ m e final', machine.Performs new start m accesses e ∧
      machine.step new e = .returned value final' ∧ final'.memory = final.memory ∧
      final'.trace = final.trace ∧
      ∀ x, x ∉ own → machine.value final' (.symbol x) = machine.value final (.symbol x)
  forever : (∀ n, ∃ accesses s, machine.Performs old start n accesses s) →
    ∀ n, ∃ accesses e, machine.Performs new start n accesses e

end Runs

/-- `sum = 0; i = 0; while (i < len) { sum = sum + data[i]; i = i + 1; }`, and what follows. -/
def sumUp (rest : List IRInstruction) : IRFunction :=
  { name := "f", parameterNames := ["data", "len"]
    parameterTypes := [some "int32*", some "int64"]
    instructions :=
      [{ op := .assign, dest := .symbol "sum", lhs := .int 0 },
       { op := .assign, dest := .symbol "i", lhs := .int 0 },
       { op := .label, text := some "ir_while_0" },
       { op := .binary, text := some "<", dest := .temp "t0", lhs := .symbol "i"
         rhs := .symbol "len" },
       { op := .branchZero, lhs := .temp "t0", text := some "ir_while_end_1" },
       { op := .binary, text := some "<<", dest := .temp "t1", lhs := .symbol "i", rhs := .int 2 },
       { op := .binary, text := some "+", dest := .temp "t2", lhs := .symbol "data"
         rhs := .temp "t1" },
       { op := .load, dest := .temp "t3", lhs := .temp "t2", rhs := .int 4 },
       { op := .binary, text := some "+", dest := .symbol "sum", lhs := .symbol "sum"
         rhs := .temp "t3" },
       { op := .binary, text := some "+", dest := .symbol "i", lhs := .symbol "i", rhs := .int 1 },
       { op := .jump, text := some "ir_while_0" },
       { op := .label, text := some "ir_while_end_1" }] ++ rest }

/-- `return sum;` -/
def sumUpReturn : IRFunction := sumUp [{ op := .return_, lhs := .symbol "sum" }]

/-- `return i < 10;` -/
def sumUpCompare : IRFunction :=
  sumUp [{ op := .binary, text := some "<", dest := .temp "t4", lhs := .symbol "i", rhs := .int 10 },
    { op := .return_, lhs := .temp "t4" }]

def sumUpLoop : InductionLoop :=
  { iv := "i", bound := "len", compareIndex := 3, branchIndex := 4, incrementIndex := 9
    jumpIndex := 10 }

def sumUpBindings : List PtrBaseBinding :=
  [{ base := "data", ptr := "__ptr_2_data_p", addrTemps := ["t2"] }]

def sumUpStart : IRState (BitVec 64) Cells :=
  cellStart (fun x => if x = "data" then some 100 else if x = "len" then some 2 else none) id

theorem sumUp_safe : InductionSafe (cellMachine fun _ => false).resident
    ⟨sumUpReturn.instructions, 2, sumUpLoop, sumUpBindings⟩ where
  distinct := by decide
  isPrivate _ _ := rfl
  apart := by decide
  unused := by decide
  plain p c hc := by
    have hAll : ∀ x ∈ sumUpReturn.instructions.zipIdx,
        PtrRewrite.drops ⟨sumUpReturn.instructions, 2, sumUpLoop, sumUpBindings⟩ x.2 x.1 = true →
        x.1.op.isPure = true ∧ x.1.dest ∈ [IROperand.temp "t1", .temp "t2"] := by decide
    intro hDrops
    obtain ⟨hPure, hDest⟩ := hAll (c, p) (mk_mem_zipIdx_iff_getElem?.mpr hc) hDrops
    refine ⟨hPure, ?_⟩
    rcases mem_cons.mp hDest with hDest | hDest
    · exact ⟨_, hDest⟩
    · exact ⟨_, mem_singleton.mp hDest⟩
  unread p c hc := by
    have hAll : ∀ x ∈ sumUpReturn.instructions.zipIdx,
        PtrRewrite.drops ⟨sumUpReturn.instructions, 2, sumUpLoop, sumUpBindings⟩ x.2 x.1 = false →
        ∀ operand ∈ PtrRewrite.keptReads
          ⟨sumUpReturn.instructions, 2, sumUpLoop, sumUpBindings⟩ x.2 x.1,
          operand ∉ PtrRewrite.lost ⟨sumUpReturn.instructions, 2, sumUpLoop, sumUpBindings⟩ := by
      decide
    exact hAll (c, p) (mk_mem_zipIdx_iff_getElem?.mpr hc)
  inside p c hc := by
    have hAll : ∀ x ∈ sumUpReturn.instructions.zipIdx, 2 ≤ x.2 → x.2 ≠ 9 →
        PtrRewrite.rewrite ⟨sumUpReturn.instructions, 2, sumUpLoop, sumUpBindings⟩ x.1 ≠ x.1 →
        x.2 = 3 ∨ (4 < x.2 ∧ x.2 < 10 ∧ x.1.op ≠ .binary) := by decide
    exact hAll (c, p) (mk_mem_zipIdx_iff_getElem?.mpr hc)
  entered p c name q hc := by
    have hAll : ∀ x ∈ sumUpReturn.instructions.zipIdx,
        ¬ PtrRewrite.Holds ⟨sumUpReturn.instructions, 2, sumUpLoop, sumUpBindings⟩ x.2 →
        x.1.mayJump = false := by decide
    intro hOut hMay
    rw [hAll (c, p) (mk_mem_zipIdx_iff_getElem?.mpr hc) hOut] at hMay
    cases hMay

theorem sumUp_passes : (cellMachine fun _ => false).passes sumUpReturn.instructions
    (fun s => decide (StepsPointer (cellMachine fun _ => false)
      ⟨sumUpReturn.instructions, 2, sumUpLoop, sumUpBindings⟩ s)) 30 sumUpStart = true := by
  decide

end Mettle.IR
