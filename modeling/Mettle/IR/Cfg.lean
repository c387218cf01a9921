import Mathlib.Order.Nat
import Mettle.IR.Paths

/-!
# Mettle — the control-flow graph of a function

`ir_function_rebuild_cfg`: the instructions are cut into blocks, at every label
and behind every jump, branch and return, and the blocks get their successors and
predecessors.
-/

namespace Mettle.IR

open List Option

-- ---
-- Blocks
-- ---

/-- `IRBasicBlock`; its instructions are those of the function from
`firstInstruction` on. -/
structure IRBasicBlock where
  label : Option String
  firstInstruction : Nat
  instructionCount : Nat
  successors : List Nat := []
  predecessors : List Nat := []
  deriving DecidableEq

/-- `ir_instruction_is_terminator`. -/
def IRInstruction.isTerminator (instruction : IRInstruction) : Bool :=
  instruction.op == .jump || instruction.op == .return_

/-- `ir_instruction_is_branch`. -/
def IRInstruction.isBranch (instruction : IRInstruction) : Bool :=
  instruction.op == .branchZero || instruction.op == .branchEq

/-- `block_starts[i]`: the first instruction, a label, or what stands behind a
terminator or a branch. -/
def blockStart (instructions : List IRInstruction) (i : Nat) : Bool :=
  i == 0 || instructions[i]?.any (fun c => c.op == .label) ||
    instructions[i - 1]?.any (fun c => c.isTerminator || c.isBranch)

def blockStarts (instructions : List IRInstruction) : List Nat :=
  (List.range instructions.length).filter (blockStart instructions)

def blockLabel (instructions : List IRInstruction) (start : Nat) : Option String :=
  instructions[start]?.bind fun c => if c.op = .label then c.text else none

def makeBlocks (instructions : List IRInstruction) : List IRBasicBlock :=
  (blockStarts instructions).mapIdx fun b start =>
    { label := blockLabel instructions start
      firstInstruction := start
      instructionCount := (blockStarts instructions).getD (b + 1) instructions.length - start }

/-- `ir_cfg_find_label_block`: the first block of that name. -/
def findLabelBlock (blocks : List IRBasicBlock) (label : String) : Option Nat :=
  blocks.findIdx? fun block => block.label == some label

/-- `ir_cfg_block_last_non_nop`. -/
def blockLastNonNop (instructions : List IRInstruction) (block : IRBasicBlock) :
    Option IRInstruction :=
  (((instructions.drop block.firstInstruction).take block.instructionCount).filter
    fun c => c.op != .nop).getLast?

-- ---
-- Edges
-- ---

def nextBlock (count b : Nat) : List Nat := if b + 1 < count then [b + 1] else []

def blockTargets (instructions : List IRInstruction) (blocks : List IRBasicBlock) (b : Nat)
    (block : IRBasicBlock) : List Nat :=
  match blockLastNonNop instructions block with
  | none => nextBlock blocks.length b
  | some last =>
    let target := (last.text.bind (findLabelBlock blocks)).toList
    if last.op = .jump then target
    else if last.isBranch then target ++ nextBlock blocks.length b
    else if last.op = .return_ then []
    else nextBlock blocks.length b

/-- `ir_block_append_index_unique`. -/
def appendUnique (items : List Nat) (value : Nat) : List Nat :=
  if value ∈ items then items else items ++ [value]

/-- `ir_cfg_append_edge`. -/
def appendEdge (blocks : List IRBasicBlock) (source target : Nat) : List IRBasicBlock :=
  (blocks.modify source fun block =>
      { block with successors := appendUnique block.successors target }).modify
    target fun block =>
      { block with predecessors := appendUnique block.predecessors source }

/-- `ir_function_rebuild_cfg`. -/
def rebuildCfg (instructions : List IRInstruction) : List IRBasicBlock :=
  let blocks := makeBlocks instructions
  blocks.zipIdx.foldl (fun graph (block, b) =>
      (blockTargets instructions blocks b block).foldl (fun graph => appendEdge graph b) graph)
    blocks

example : (rebuildCfg [{ op := .branchZero, lhs := .int 0, text := some "L" }, { op := .nop },
    { op := .label, text := some "L" }]).map (fun b => (b.firstInstruction, b.successors,
      b.predecessors)) = [(0, [2, 1], []), (1, [2], [0]), (2, [], [0, 1])] := by decide

-- ---
-- The places where blocks start
-- ---

variable {p b q : Nat} {code : List IRInstruction} {c : IRInstruction}

section Starts

variable {instructions : List IRInstruction}

theorem pairwise_blockStarts (code : List IRInstruction) : (blockStarts code).Pairwise (· < ·) :=
  List.Pairwise.filter _ pairwise_lt_range

theorem mem_blockStarts : p ∈ blockStarts code ↔ p < code.length ∧ blockStart code p = true := by
  simp [blockStarts]

theorem blockStarts_lt {a : Nat} (ha : (blockStarts code)[a]? = some p)
    (hb : (blockStarts code)[b]? = some q) : a < b ↔ p < q := by
  obtain ⟨haLt, rfl⟩ := List.getElem_of_getElem? ha
  obtain ⟨hbLt, rfl⟩ := List.getElem_of_getElem? hb
  have hMono := List.pairwise_iff_getElem.mp (pairwise_blockStarts code)
  constructor
  · intro hab
    exact hMono a b haLt hbLt hab
  · intro hpq
    by_contra hNot
    rcases Nat.lt_or_eq_of_le (Nat.le_of_not_lt hNot) with hba | rfl
    · have := hMono b a hbLt haLt hba
      omega
    · omega

/-- Where block `b` ends. -/
def blockEnd (instructions : List IRInstruction) (b : Nat) : Nat :=
  (blockStarts instructions).getD (b + 1) instructions.length

theorem blockStart_lt_end (hb : (blockStarts code)[b]? = some p) : p < blockEnd code b := by
  unfold blockEnd
  cases hNext : (blockStarts code)[b + 1]? with
  | none =>
    rw [getD_eq_getElem?_getD, hNext]
    exact (mem_blockStarts.mp (mem_of_getElem? hb)).1
  | some q =>
    rw [getD_eq_getElem?_getD, hNext]
    exact (blockStarts_lt hb hNext).mp (Nat.lt_succ_self b)

theorem blockEnd_le (code : List IRInstruction) (b : Nat) : blockEnd code b ≤ code.length := by
  unfold blockEnd
  cases hNext : (blockStarts code)[b + 1]? with
  | none =>
    rw [getD_eq_getElem?_getD, hNext]
    exact le_refl _
  | some q =>
    rw [getD_eq_getElem?_getD, hNext]
    exact Nat.le_of_lt (mem_blockStarts.mp (mem_of_getElem? hNext)).1

theorem not_blockStart_inside (hb : (blockStarts instructions)[b]? = some p) (hLo : p < q)
    (hHi : q < blockEnd instructions b) : blockStart instructions q = false := by
  rw [Bool.eq_false_iff]
  intro hStart
  have hMem : q ∈ blockStarts instructions :=
    mem_blockStarts.mpr ⟨hHi.trans_le (blockEnd_le instructions b), hStart⟩
  obtain ⟨c, hc⟩ := mem_iff_getElem?.mp hMem
  have hbc : b < c := (blockStarts_lt hb hc).mpr hLo
  unfold blockEnd at hHi
  cases hNext : (blockStarts instructions)[b + 1]? with
  | none =>
    have hLength := getElem?_eq_none_iff.mp hNext
    have := (List.getElem_of_getElem? hc).1
    omega
  | some r =>
    rw [getD_eq_getElem?_getD, hNext] at hHi
    have hcb : c < b + 1 := (blockStarts_lt hc hNext).mpr hHi
    omega

theorem plain_inside (hb : (blockStarts code)[b]? = some p)
    (hLo : p ≤ q) (hHi : q + 1 < blockEnd code b) (hAt : code[q]? = some c) :
    c.isTerminator = false ∧ c.isBranch = false := by
  have hNot := not_blockStart_inside hb (q := q + 1) (by omega) hHi
  simp only [blockStart, Nat.add_sub_cancel, hAt, any_some, Bool.or_eq_false_iff] at hNot
  exact hNot.2

theorem blockStarts_next {a : Nat} (hb : (blockStarts code)[b]? = some p) :
    (blockStarts code)[a]? = some (blockEnd code b) ↔
      a = b + 1 ∧ a < (blockStarts code).length := by
  constructor
  · intro ha
    have haLt := (List.getElem_of_getElem? ha).1
    refine ⟨?_, haLt⟩
    have hba : b < a := (blockStarts_lt hb ha).mpr (blockStart_lt_end hb)
    unfold blockEnd at ha
    cases hNext : (blockStarts code)[b + 1]? with
    | none =>
      have := getElem?_eq_none_iff.mp hNext
      omega
    | some q =>
      rw [getD_eq_getElem?_getD, hNext] at ha
      have hNot : ¬ b + 1 < a := by
        intro hLt
        have := (blockStarts_lt hNext ha).mp hLt
        exact absurd this (Nat.lt_irrefl q)
      omega
  · rintro ⟨rfl, haLt⟩
    unfold blockEnd
    rw [getD_eq_getElem?_getD, getElem?_eq_getElem haLt]
    rfl

theorem mem_blockStarts_label (hAt : instructions[p]? = some c)
    (hOp : c.op = .label) : p ∈ blockStarts instructions := by
  refine mem_blockStarts.mpr ⟨(List.getElem_of_getElem? hAt).1, ?_⟩
  simp [blockStart, hAt, hOp]

end Starts

-- ---
-- Blocks and the instructions they end with
-- ---

variable {last : IRInstruction} {blocks : List IRBasicBlock}

section Blocks

variable {b t : Nat} {block : IRBasicBlock}

theorem getElem?_makeBlocks : (makeBlocks code)[b]? = some block ↔
      ∃ start, (blockStarts code)[b]? = some start ∧
        block = { label := blockLabel code start, firstInstruction := start,
                  instructionCount := blockEnd code b - start } := by
  rw [makeBlocks, getElem?_mapIdx, map_eq_some_iff]
  constructor
  · rintro ⟨start, hStart, rfl⟩
    exact ⟨start, hStart, rfl⟩
  · rintro ⟨start, hStart, rfl⟩
    exact ⟨start, hStart, rfl⟩

theorem length_makeBlocks : (makeBlocks code).length = (blockStarts code).length := by
  simp [makeBlocks]

def IRBasicBlock.lastInstruction (block : IRBasicBlock) : Nat :=
  block.firstInstruction + block.instructionCount - 1

theorem lastInstruction_makeBlocks (h : (makeBlocks code)[b]? = some block) :
    block.firstInstruction ≤ block.lastInstruction ∧ block.lastInstruction + 1 = blockEnd code b ∧
      block.lastInstruction < code.length := by
  obtain ⟨start, hStart, rfl⟩ := getElem?_makeBlocks.mp h
  have hLt := blockStart_lt_end hStart
  have hLe := blockEnd_le code b
  simp only [IRBasicBlock.lastInstruction]
  omega

theorem blockSlice_eq (h : (makeBlocks code)[b]? = some block)
    (hLast : code[block.lastInstruction]? = some last) :
    ∃ front, (code.drop block.firstInstruction).take block.instructionCount = front ++ [last] ∧
      ∀ c ∈ front, c.isTerminator = false ∧ c.isBranch = false := by
  obtain ⟨start, hStart, rfl⟩ := getElem?_makeBlocks.mp h
  have hLt := blockStart_lt_end hStart
  obtain ⟨count, hCount⟩ : ∃ count, blockEnd code b - start = count + 1 :=
    ⟨blockEnd code b - start - 1, by omega⟩
  simp only [IRBasicBlock.lastInstruction, hCount] at hLast ⊢
  refine ⟨(code.drop start).take count, ?_, ?_⟩
  · rw [take_add_one, getElem?_drop]
    rw [show start + (count + 1) - 1 = start + count by omega] at hLast
    rw [hLast]
    rfl
  · intro c hc
    obtain ⟨k, hk⟩ := mem_iff_getElem?.mp hc
    rw [getElem?_take, getElem?_drop] at hk
    split at hk
    · exact plain_inside hStart (q := start + k) (by omega) (by omega) hk
    · cases hk

def lastTargets (blocks : List IRBasicBlock) (b : Nat) (last : IRInstruction) : List Nat :=
  if last.op = .jump then (last.text.bind (findLabelBlock blocks)).toList
  else if last.isBranch then
    (last.text.bind (findLabelBlock blocks)).toList ++ nextBlock blocks.length b
  else if last.op = .return_ then []
  else nextBlock blocks.length b

theorem lastTargets_plain (hTerminator : last.isTerminator = false)
    (hBranch : last.isBranch = false) :
    lastTargets blocks b last = nextBlock blocks.length b := by
  simp only [IRInstruction.isTerminator, Bool.or_eq_false_iff, beq_eq_false_iff_ne, ne_eq]
    at hTerminator
  simp [lastTargets, hTerminator.1, hTerminator.2, hBranch]

theorem blockTargets_eq (h : (makeBlocks code)[b]? = some block)
    (hLast : code[block.lastInstruction]? = some last) :
    blockTargets code (makeBlocks code) b block = lastTargets (makeBlocks code) b last := by
  obtain ⟨front, hSlice, hPlain⟩ := blockSlice_eq h hLast
  unfold blockTargets blockLastNonNop
  rw [hSlice, filter_append]
  by_cases hNop : last.op = .nop
  · -- what stands before a trailing nop falls through, as the nop does
    have hNopTerminator : last.isTerminator = false := by simp [IRInstruction.isTerminator, hNop]
    have hNopBranch : last.isBranch = false := by simp [IRInstruction.isBranch, hNop]
    rw [lastTargets_plain hNopTerminator hNopBranch]
    have hFilter : [last].filter (fun c => c.op != .nop) = [] := by simp [hNop]
    rw [hFilter, append_nil]
    split
    · rfl
    · rename_i c hc
      have hMem := mem_of_mem_filter (mem_of_getLast? hc)
      exact lastTargets_plain (hPlain c hMem).1 (hPlain c hMem).2
  · have hFilter : [last].filter (fun c => c.op != .nop) = [last] := by simp [hNop]
    rw [hFilter, getLast?_append]
    rfl

theorem findLabelBlock_iff {name : String} : findLabelBlock (makeBlocks code) name = some t ↔
      ∃ k, labelIndex code name = some k ∧ (blockStarts code)[t]? = some k := by
  have hIs : ∀ {u start : Nat} {found : IRBasicBlock}, (makeBlocks code)[u]? = some found →
      (blockStarts code)[u]? = some start →
      ((found.label == some name) = true ↔
        ∃ c, code[start]? = some c ∧ c.op = .label ∧ c.text = some name) := by
    intro u start found hFound hStart
    obtain ⟨start', hStart', rfl⟩ := getElem?_makeBlocks.mp hFound
    obtain rfl := some.inj (hStart.symm.trans hStart')
    simp only [blockLabel, beq_iff_eq, bind_eq_some_iff]
    constructor
    · rintro ⟨c, hc, hText⟩
      split at hText
      · exact ⟨c, hc, ‹_›, hText⟩
      · cases hText
    · rintro ⟨c, hc, hOp, hText⟩
      exact ⟨c, hc, by rw [if_pos hOp, hText]⟩
  have hLabel : ∀ {p : Nat} (hp : p < code.length),
      ((code[p].op == .label && code[p].text == some name) = true ↔
        ∃ c, code[p]? = some c ∧ c.op = .label ∧ c.text = some name) := by
    intro p hp
    rw [getElem?_eq_getElem hp]
    simp
  unfold findLabelBlock labelIndex
  rw [findIdx?_eq_some_iff_getElem]
  constructor
  · rintro ⟨ht, hHere, hFirst⟩
    obtain ⟨start, hStart, -⟩ := getElem?_makeBlocks.mp (getElem?_eq_getElem ht)
    refine ⟨start, ?_, hStart⟩
    have hLt := (mem_blockStarts.mp (mem_of_getElem? hStart)).1
    rw [findIdx?_eq_some_iff_getElem]
    refine ⟨hLt, (hLabel hLt).mpr ((hIs (getElem?_eq_getElem ht) hStart).mp hHere), ?_⟩
    intro j hj hIsLabel
    obtain ⟨c, hc, hOp, hText⟩ := (hLabel (hj.trans hLt)).mp hIsLabel
    -- an earlier label of that name would be an earlier block of that name
    obtain ⟨u, hu⟩ := mem_iff_getElem?.mp (mem_blockStarts_label hc hOp)
    have hut : u < t := (blockStarts_lt hu hStart).mpr hj
    exact hFirst u hut ((hIs (getElem?_eq_getElem (hut.trans ht)) hu).mpr ⟨c, hc, hOp, hText⟩)
  · rintro ⟨k, hk, hStart⟩
    obtain ⟨hLt, hHere, hFirst⟩ := findIdx?_eq_some_iff_getElem.mp hk
    have ht : t < (makeBlocks code).length := by
      rw [length_makeBlocks]
      exact (List.getElem_of_getElem? hStart).1
    refine ⟨ht, (hIs (getElem?_eq_getElem ht) hStart).mpr ((hLabel hLt).mp hHere), ?_⟩
    intro u hu hIsBlock
    obtain ⟨start, hu', -⟩ := getElem?_makeBlocks.mp (getElem?_eq_getElem (hu.trans ht))
    have hBefore : start < k := (blockStarts_lt hu' hStart).mp hu
    obtain ⟨c, hc, hOp, hText⟩ := (hIs (getElem?_eq_getElem (hu.trans ht)) hu').mp hIsBlock
    exact hFirst start hBefore ((hLabel (hBefore.trans hLt)).mpr ⟨c, hc, hOp, hText⟩)

theorem mem_nextBlock (h : (makeBlocks code)[b]? = some block) :
    t ∈ nextBlock (makeBlocks code).length b ↔
      (blockStarts code)[t]? = some (block.lastInstruction + 1) := by
  obtain ⟨start, hStart, -⟩ := getElem?_makeBlocks.mp h
  rw [(lastInstruction_makeBlocks h).2.1, blockStarts_next hStart, ← length_makeBlocks]
  unfold nextBlock
  split
  · rw [mem_singleton]
    omega
  · simp only [not_mem_nil, false_iff]
    omega

/-- **The edges of a block are the edges of its last instruction.** -/
theorem mem_blockTargets (h : (makeBlocks code)[b]? = some block) :
    t ∈ blockTargets code (makeBlocks code) b block ↔ ∃ start, (blockStarts code)[t]? = some start ∧
        Edge code block.lastInstruction start := by
  have hLt := (lastInstruction_makeBlocks h).2.2
  have hLast := getElem?_eq_getElem hLt
  rw [blockTargets_eq h hLast]
  generalize code[block.lastInstruction] = last at hLast
  have hTarget : t ∈ (last.text.bind (findLabelBlock (makeBlocks code))).toList ↔
      ∃ start, (blockStarts code)[t]? = some start ∧
        ∃ name, last.text = some name ∧ labelIndex code name = some start := by
    simp only [mem_toList, bind_eq_some_iff, findLabelBlock_iff]
    constructor
    · rintro ⟨name, hText, k, hk, hStart⟩
      exact ⟨k, hStart, name, hText, hk⟩
    · rintro ⟨k, hStart, name, hText, hk⟩
      exact ⟨name, hText, k, hk, hStart⟩
  have hEdge : ∀ start, Edge code block.lastInstruction start ↔
      ((last.op ≠ .jump ∧ last.op ≠ .return_ ∧ start = block.lastInstruction + 1) ∨
        ((last.op = .jump ∨ last.op = .branchZero ∨ last.op = .branchEq) ∧
          ∃ name, last.text = some name ∧ labelIndex code name = some start)) := by
    intro start
    unfold Edge
    rw [hLast]
    simp
  simp only [hEdge]
  by_cases hJump : last.op = .jump
  · rw [lastTargets, if_pos hJump, hTarget]
    simp [hJump]
  · by_cases hBranch : last.isBranch = true
    · have hOps : last.op = .branchZero ∨ last.op = .branchEq := by
        simpa [IRInstruction.isBranch] using hBranch
      have hReturn : last.op ≠ .return_ := by
        rcases hOps with hOp | hOp <;> rw [hOp] <;> decide
      rw [lastTargets, if_neg hJump, if_pos hBranch, mem_append, hTarget, mem_nextBlock h]
      constructor
      · rintro (⟨start, hStart, hName⟩ | hNext)
        · exact ⟨start, hStart, Or.inr ⟨Or.inr hOps, hName⟩⟩
        · exact ⟨_, hNext, Or.inl ⟨hJump, hReturn, rfl⟩⟩
      · rintro ⟨start, hStart, ⟨-, -, rfl⟩ | ⟨-, hName⟩⟩
        · exact Or.inr hStart
        · exact Or.inl ⟨start, hStart, hName⟩
    · have hOps : last.op ≠ .branchZero ∧ last.op ≠ .branchEq := by
        simpa [IRInstruction.isBranch] using hBranch
      by_cases hReturn : last.op = .return_
      · rw [lastTargets, if_neg hJump, if_neg hBranch, if_pos hReturn]
        simp [hReturn]
      · rw [lastTargets, if_neg hJump, if_neg hBranch, if_neg hReturn, mem_nextBlock h]
        constructor
        · intro hNext
          exact ⟨_, hNext, Or.inl ⟨hJump, hReturn, rfl⟩⟩
        · rintro ⟨start, hStart, ⟨-, -, rfl⟩ | ⟨hOp | hOp | hOp, -⟩⟩
          · exact hStart
          · exact absurd hOp hJump
          · exact absurd hOp hOps.1
          · exact absurd hOp hOps.2

end Blocks

-- ---
-- The graph
-- ---

variable {graph : List IRBasicBlock}

section Graph

def cfgEdges (instructions : List IRInstruction) : List (Nat × Nat) :=
  (makeBlocks instructions).zipIdx.flatMap fun (block, b) =>
    (blockTargets instructions (makeBlocks instructions) b block).map fun t => (b, t)

theorem rebuildCfg_eq : rebuildCfg code =
      (cfgEdges code).foldl (fun graph edge => appendEdge graph edge.1 edge.2)
        (makeBlocks code) := by
  simp only [rebuildCfg, cfgEdges, foldl_flatMap, foldl_map]

theorem mem_appendUnique {items : List Nat} {value x : Nat} :
    x ∈ appendUnique items value ↔ x ∈ items ∨ x = value := by
  unfold appendUnique
  split
  · rename_i hMem
    constructor
    · exact Or.inl
    · rintro (hx | rfl)
      · exact hx
      · exact hMem
  · simp

theorem nodup_appendUnique {items : List Nat} {value : Nat} (h : items.Nodup) :
    (appendUnique items value).Nodup := by
  unfold appendUnique
  split
  · exact h
  · rename_i hNot
    exact nodup_append.mpr ⟨h, by simp, by
      rintro a ha b hb rfl
      exact hNot (mem_singleton.mp hb ▸ ha)⟩

/-- The graph has the blocks and, at each of them, the edges appended so far. -/
structure GraphOf (blocks : List IRBasicBlock) (edges : List (Nat × Nat))
    (graph : List IRBasicBlock) : Prop where
  length : graph.length = blocks.length
  block : ∀ (b : Nat) node, graph[b]? = some node → ∃ block, blocks[b]? = some block ∧
    node.label = block.label ∧ node.firstInstruction = block.firstInstruction ∧
    node.instructionCount = block.instructionCount
  successors : ∀ (b : Nat) node, graph[b]? = some node →
    (∀ t, t ∈ node.successors ↔ (b, t) ∈ edges) ∧ node.successors.Nodup
  predecessors : ∀ (b : Nat) node, graph[b]? = some node →
    (∀ a, a ∈ node.predecessors ↔ (a, b) ∈ edges) ∧ node.predecessors.Nodup

theorem getElem?_appendEdge {source target : Nat} {node : IRBasicBlock}
    (h : (appendEdge graph source target)[b]? = some node) :
    ∃ old, graph[b]? = some old ∧ node.label = old.label ∧
      node.firstInstruction = old.firstInstruction ∧
      node.instructionCount = old.instructionCount ∧
      node.successors =
        (if source = b then appendUnique old.successors target else old.successors) ∧
      node.predecessors =
        (if target = b then appendUnique old.predecessors source else old.predecessors) := by
  unfold appendEdge at h
  rw [getElem?_modify, getElem?_modify] at h
  cases hOld : graph[b]? with
  | none =>
    rw [hOld] at h
    split at h <;> split at h <;> cases h
  | some old =>
    rw [hOld] at h
    refine ⟨old, rfl, ?_⟩
    split at h <;> split at h <;> cases h <;> simp [*]

theorem GraphOf.appendEdge {edges : List (Nat × Nat)} {source target : Nat}
    (h : GraphOf blocks edges graph) :
    GraphOf blocks (edges ++ [(source, target)]) (appendEdge graph source target) := by
  refine ⟨?_, ?_, ?_, ?_⟩
  · simp [Mettle.IR.appendEdge, h.length]
  · intro b node hNode
    obtain ⟨old, hOld, hLabel, hFirst, hCount, -, -⟩ := getElem?_appendEdge hNode
    obtain ⟨block, hBlock, hLabel', hFirst', hCount'⟩ := h.block b old hOld
    exact ⟨block, hBlock, hLabel.trans hLabel', hFirst.trans hFirst', hCount.trans hCount'⟩
  · intro b node hNode
    obtain ⟨old, hOld, -, -, -, hSuccessors, -⟩ := getElem?_appendEdge hNode
    obtain ⟨hMem, hNodup⟩ := h.successors b old hOld
    rw [hSuccessors]
    split
    · rename_i hIs
      refine ⟨?_, nodup_appendUnique hNodup⟩
      intro t
      rw [mem_appendUnique, hMem]
      simp [← hIs]
    · rename_i hIs
      refine ⟨?_, hNodup⟩
      intro t
      rw [hMem, mem_append]
      simp [Ne.symm hIs]
  · intro b node hNode
    obtain ⟨old, hOld, -, -, -, -, hPredecessors⟩ := getElem?_appendEdge hNode
    obtain ⟨hMem, hNodup⟩ := h.predecessors b old hOld
    rw [hPredecessors]
    split
    · rename_i hIs
      refine ⟨?_, nodup_appendUnique hNodup⟩
      intro a
      rw [mem_appendUnique, hMem]
      simp [← hIs]
    · rename_i hIs
      refine ⟨?_, hNodup⟩
      intro a
      rw [hMem, mem_append]
      simp [Ne.symm hIs]

theorem graphOf_foldl {edges more : List (Nat × Nat)} (h : GraphOf blocks edges graph) :
    GraphOf blocks (edges ++ more)
      (more.foldl (fun graph edge => appendEdge graph edge.1 edge.2) graph) := by
  induction more generalizing edges graph with
  | nil => simpa using h
  | cons edge more ih =>
    have hHead : GraphOf blocks (edges ++ [(edge.1, edge.2)]) (appendEdge graph edge.1 edge.2) :=
      h.appendEdge
    have hNext := ih hHead
    rw [append_assoc] at hNext
    exact hNext

theorem graphOf_makeBlocks : GraphOf (makeBlocks code) [] (makeBlocks code) := by
  have hEmpty : ∀ (b : Nat) node, (makeBlocks code)[b]? = some node →
      node.successors = [] ∧ node.predecessors = [] := by
    intro b node hNode
    obtain ⟨start, -, rfl⟩ := getElem?_makeBlocks.mp hNode
    exact ⟨rfl, rfl⟩
  refine ⟨rfl, fun b node hNode => ⟨node, hNode, rfl, rfl, rfl⟩, ?_, ?_⟩
  · intro b node hNode
    rw [(hEmpty b node hNode).1]
    simp
  · intro b node hNode
    rw [(hEmpty b node hNode).2]
    simp

theorem graphOf_rebuildCfg : GraphOf (makeBlocks code) (cfgEdges code) (rebuildCfg code) := by
  rw [rebuildCfg_eq]
  exact graphOf_foldl graphOf_makeBlocks

theorem mem_cfgEdges {t : Nat} :
    (b, t) ∈ cfgEdges code ↔ ∃ block, (makeBlocks code)[b]? = some block ∧
      t ∈ blockTargets code (makeBlocks code) b block := by
  simp only [cfgEdges, List.mem_flatMap, List.mem_map, Prod.exists, Prod.mk.injEq]
  constructor
  · rintro ⟨block, b', hMem, t', ht, rfl, rfl⟩
    exact ⟨block, mem_zipIdx_iff_getElem?.mp hMem, ht⟩
  · rintro ⟨block, hBlock, ht⟩
    exact ⟨block, b, mem_zipIdx_iff_getElem?.mpr hBlock, t, ht, rfl, rfl⟩

end Graph

-- ---
-- Edges and steps
-- ---

def IRInstruction.isComplete (c : IRInstruction) : Bool :=
  match c.op with
  | .branchZero | .assign => c.lhs != .none
  | .branchEq | .load | .rotateAdd => c.lhs != .none && c.rhs != .none
  | .addressOf =>
    match c.lhs with
    | .symbol _ => true
    | _ => false
  | .binary => c.text.isSome && c.lhs != .none && c.rhs != .none
  | .unary | .cast => c.text.isSome && c.lhs != .none
  | .store => c.dest != .none && c.lhs != .none && c.rhs != .none
  | .call => c.text.isSome && c.arguments.all (· != .none)
  | .callIndirect => c.lhs != .none && c.arguments.all (· != .none)
  | .new => c.text.isSome && c.rhs != .none
  | .inlineAsm => c.text.isSome
  | _ => true

def openMachine (taken : Bool) : Machine Unit Unit where
  int _ := ()
  float _ _ := ()
  string _ := ()
  label _ := ()
  isZero _ := taken
  equal _ _ := taken
  binary _ _ _ _ := some ()
  concat _ _ := some ()
  unary _ _ _ := some ()
  cast _ _ _ := some ()
  addressOf _ := ()
  load _ _ _ _ := some ()
  store _ _ _ _ _ := some ()
  call _ _ _ := some ((), ())
  callIndirect _ _ _ := some ((), ())
  new _ _ _ := some ((), ())
  inlineAsm _ locals _ := some (locals, ())
  kernel _ _ _ := some ((), (), ())
  convert _ _ := ()
  copied _ _ := ()
  resident _ := false
  getResident _ _ := ()
  setResident _ _ _ := ()
  narrow _ _ := ()
  get_set_self _ _ _ := rfl
  narrow_get _ _ := rfl
  get_set_of_ne _ _ _ _ _ := rfl
  new_resident _ _ _ _ _ _ _ := rfl
  binary_comm _ _ _ _ _ := rfl

def openState (pc : Nat) : IRState Unit Unit :=
  { pc := pc, temps := fun _ => some (), locals := fun _ => some (), memory := (), trace := [] }

section Steps

variable {p q : Nat} {taken : Bool}

theorem openMachine_value {operand : IROperand} (h : operand ≠ .none) :
    (openMachine taken).value (openState p) operand = some () := by
  cases operand with
  | none => exact absurd rfl h
  | _ => rfl

theorem openMachine_operate (c : IRInstruction) (op : String) :
    (openMachine taken).operate c op () () = some () := by
  unfold Machine.operate
  split <;> rfl

theorem openMachine_arguments {arguments : List IROperand} (h : arguments.all (· != .none) = true) :
    arguments.mapM ((openMachine taken).value (openState p)) =
      some (arguments.map fun _ => ()) := by
  induction arguments with
  | nil => rfl
  | cons operand arguments ih =>
    rw [all_cons, Bool.and_eq_true, bne_iff_ne] at h
    simp [openMachine_value h.1, ih h.2]

theorem openMachine_runs (code : List IRInstruction) (p : Nat)
    (hComplete : c.isComplete = true) (hJump : c.op ≠ .jump) (hReturn : c.op ≠ .return_) :
    ∃ state, (openMachine false).execute code (openState p) c = .running state := by
  by_cases hKernel : c.op.isKernel = true
  · rw [execute_kernel hKernel]
    exact ⟨_, rfl⟩
  · unfold IRInstruction.isComplete at hComplete
    unfold Machine.execute
    cases hOp : c.op <;> rw [hOp] at hComplete hKernel hJump hReturn <;> dsimp only at hComplete ⊢ <;>
      first
      | exact absurd rfl hKernel
      | exact absurd rfl hJump
      | exact absurd rfl hReturn
      | skip
    case nop => exact ⟨_, rfl⟩
    case label => exact ⟨_, rfl⟩
    case declareLocal => exact ⟨_, rfl⟩
    case branchZero =>
      rw [openMachine_value (by simpa using hComplete)]
      exact ⟨_, rfl⟩
    case branchEq =>
      simp only [Bool.and_eq_true, bne_iff_ne] at hComplete
      rw [openMachine_value hComplete.1, openMachine_value hComplete.2]
      exact ⟨_, rfl⟩
    case assign =>
      rw [Machine.compute, hOp]
      rw [openMachine_value (by simpa using hComplete)]
      exact ⟨_, rfl⟩
    case addressOf =>
      split at hComplete
      · rename_i name hLhs
        rw [Machine.compute, hOp]
        rw [hLhs]
        exact ⟨_, rfl⟩
      · cases hComplete
    case load =>
      simp only [Bool.and_eq_true, bne_iff_ne] at hComplete
      rw [openMachine_value hComplete.1, openMachine_value hComplete.2]
      exact ⟨_, rfl⟩
    case store =>
      simp only [Bool.and_eq_true, bne_iff_ne] at hComplete
      rw [openMachine_value hComplete.1.1, openMachine_value hComplete.1.2,
        openMachine_value hComplete.2]
      exact ⟨_, rfl⟩
    case binary =>
      simp only [Bool.and_eq_true, bne_iff_ne, isSome_iff_exists] at hComplete
      obtain ⟨⟨⟨text, hText⟩, hLhs⟩, hRhs⟩ := hComplete
      rw [Machine.compute, hOp]
      rw [hText, openMachine_value hLhs, openMachine_value hRhs]
      dsimp only
      rw [openMachine_operate]
      exact ⟨_, rfl⟩
    case unary =>
      simp only [Bool.and_eq_true, bne_iff_ne, isSome_iff_exists] at hComplete
      obtain ⟨⟨text, hText⟩, hLhs⟩ := hComplete
      rw [Machine.compute, hOp]
      rw [hText, openMachine_value hLhs]
      exact ⟨_, rfl⟩
    case cast =>
      simp only [Bool.and_eq_true, bne_iff_ne, isSome_iff_exists] at hComplete
      obtain ⟨⟨text, hText⟩, hLhs⟩ := hComplete
      rw [Machine.compute, hOp]
      rw [hText, openMachine_value hLhs]
      exact ⟨_, rfl⟩
    case rotateAdd =>
      simp only [Bool.and_eq_true, bne_iff_ne] at hComplete
      rw [openMachine_value hComplete.1, openMachine_value hComplete.2]
      exact ⟨_, rfl⟩
    case call =>
      simp only [Bool.and_eq_true, isSome_iff_exists] at hComplete
      obtain ⟨⟨text, hText⟩, hArguments⟩ := hComplete
      rw [hText, openMachine_arguments hArguments]
      exact ⟨_, rfl⟩
    case callIndirect =>
      simp only [Bool.and_eq_true, bne_iff_ne] at hComplete
      rw [openMachine_value hComplete.1, openMachine_arguments hComplete.2]
      exact ⟨_, rfl⟩
    case new =>
      simp only [Bool.and_eq_true, bne_iff_ne, isSome_iff_exists] at hComplete
      obtain ⟨⟨text, hText⟩, hRhs⟩ := hComplete
      rw [hText, openMachine_value hRhs]
      exact ⟨_, rfl⟩
    case inlineAsm =>
      obtain ⟨text, hText⟩ := isSome_iff_exists.mp hComplete
      rw [hText]
      exact ⟨_, rfl⟩

/-- The IR semantics has a step from `p` to `q`: some machine takes it in some
state. -/
def CanStep (instructions : List IRInstruction) (p q : Nat) : Prop :=
  ∃ (V M : Type) (machine : Machine V M) (state state' : IRState V M), state.pc = p ∧
    machine.step instructions state = .running state' ∧ state'.pc = q

theorem edge_of_canStep (h : CanStep code p q) : Edge code p q := by
  obtain ⟨V, M, machine, state, state', rfl, hStep, rfl⟩ := h
  exact step_edge hStep

theorem openMachine_falls (code : List IRInstruction) (p : Nat)
    (hComplete : c.isComplete = true) (hJump : c.op ≠ .jump) (hReturn : c.op ≠ .return_) :
    ∃ state, (openMachine false).execute code (openState p) c = .running state ∧
      state.pc = p + 1 := by
  obtain ⟨state, hRun⟩ := openMachine_runs code p hComplete hJump hReturn
  refine ⟨state, hRun, ?_⟩
  rcases execute_pc hRun with hNext | ⟨hOp, name, hText, hIndex⟩
  · exact hNext
  · rcases hOp with hOp | hOp | hOp
    · exact absurd hOp hJump
    · rw [Machine.execute, hOp] at hRun
      dsimp only at hRun
      split at hRun
      · cases hRun
      · rw [← Outcome.running.inj hRun]
        rfl
    · rw [Machine.execute, hOp] at hRun
      dsimp only at hRun
      split at hRun
      · rw [← Outcome.running.inj hRun]
        rfl
      · cases hRun

theorem canStep_of_edge (hAt : code[p]? = some c) (hComplete : c.isComplete = true)
    (h : Edge code p q) : CanStep code p q := by
  obtain ⟨c', hAt', hCases⟩ := h
  obtain rfl := some.inj (hAt.symm.trans hAt')
  rcases hCases with ⟨hJump, hReturn, rfl⟩ | ⟨hOp, name, hText, hIndex⟩
  · obtain ⟨state, hRun, hPc⟩ := openMachine_falls code p hComplete hJump hReturn
    refine ⟨Unit, Unit, openMachine false, openState p, state, rfl, ?_, hPc⟩
    rw [Machine.step, show (openState p).pc = p from rfl, hAt]
    exact hRun
  · refine ⟨Unit, Unit, openMachine true, openState p, { openState p with pc := q }, rfl, ?_, rfl⟩
    rw [Machine.step, show (openState p).pc = p from rfl, hAt]
    show (openMachine true).execute code (openState p) c = _
    have hTarget : jumpTo code (openState p) c.text = .running { openState p with pc := q } := by
      rw [hText, jumpTo, hIndex]
    unfold IRInstruction.isComplete at hComplete
    unfold Machine.execute
    rcases hOp with hOp | hOp | hOp <;> rw [hOp] at hComplete ⊢ <;> dsimp only at hComplete ⊢
    · exact hTarget
    · rw [openMachine_value (by simpa using hComplete)]
      exact hTarget
    · simp only [Bool.and_eq_true, bne_iff_ne] at hComplete
      rw [openMachine_value hComplete.1, openMachine_value hComplete.2]
      exact hTarget

end Steps

-- ---
-- The graph is exact
-- ---

/-- The blocks are consecutive ranges, none of them empty, that make up the
instructions. -/
structure Partitions (instructions : List IRInstruction) (blocks : List IRBasicBlock) : Prop where
  nonempty : ∀ block ∈ blocks, 0 < block.instructionCount
  first : ∀ block, blocks[0]? = some block → block.firstInstruction = 0
  next : ∀ (b : Nat) block block', blocks[b]? = some block → blocks[b + 1]? = some block' →
    block'.firstInstruction = block.firstInstruction + block.instructionCount
  last : ∀ block, blocks.getLast? = some block →
    block.firstInstruction + block.instructionCount = instructions.length
  covers : instructions ≠ [] → blocks ≠ []

/-- What the graph says, with `Step` for the steps that control can take. -/
structure CfgExact (instructions : List IRInstruction) (Step : Nat → Nat → Prop)
    (blocks : List IRBasicBlock) : Prop where
  partition : Partitions instructions blocks
  successor : ∀ (a b : Nat) source target, blocks[a]? = some source → blocks[b]? = some target →
    (b ∈ source.successors ↔ Step source.lastInstruction target.firstInstruction)
  inRange : ∀ (a : Nat) source, blocks[a]? = some source →
    ∀ b ∈ source.successors, b < blocks.length
  predecessor : ∀ (a b : Nat) source target, blocks[a]? = some source →
    blocks[b]? = some target → (a ∈ target.predecessors ↔ b ∈ source.successors)
  nodup : ∀ block ∈ blocks, block.successors.Nodup ∧ block.predecessors.Nodup

section Exact

theorem blockStarts_zero (h : instructions ≠ []) : (blockStarts instructions)[0]? = some 0 := by
  have hMem : 0 ∈ blockStarts instructions :=
    mem_blockStarts.mpr ⟨length_pos_iff.mpr h, by simp [blockStart]⟩
  obtain ⟨b, hb⟩ := mem_iff_getElem?.mp hMem
  rcases Nat.eq_zero_or_pos b with rfl | hPos
  · exact hb
  · obtain ⟨first, hFirst⟩ : ∃ first, (blockStarts instructions)[0]? = some first :=
      ⟨_, List.getElem?_eq_getElem (hPos.trans (List.getElem_of_getElem? hb).1)⟩
    have := (blockStarts_lt hFirst hb).mp hPos
    omega

theorem makeBlocks_partitions : Partitions code (makeBlocks code) := by
  refine ⟨?_, ?_, ?_, ?_, ?_⟩
  · intro block hMem
    obtain ⟨b, hb⟩ := mem_iff_getElem?.mp hMem
    obtain ⟨start, hStart, rfl⟩ := getElem?_makeBlocks.mp hb
    have := blockStart_lt_end hStart
    exact Nat.sub_pos_of_lt this
  · intro block hBlock
    obtain ⟨start, hStart, rfl⟩ := getElem?_makeBlocks.mp hBlock
    have hNonempty : code ≠ [] := by
      rintro rfl
      cases hStart
    exact some.inj (hStart.symm.trans (blockStarts_zero hNonempty))
  · intro b block block' hBlock hBlock'
    obtain ⟨start, hStart, rfl⟩ := getElem?_makeBlocks.mp hBlock
    obtain ⟨start', hStart', rfl⟩ := getElem?_makeBlocks.mp hBlock'
    have hNext := (blockStarts_next hStart).mpr ⟨rfl, (List.getElem_of_getElem? hStart').1⟩
    have hSame := some.inj (hStart'.symm.trans hNext)
    have hLt := blockStart_lt_end hStart
    show start' = start + (blockEnd code b - start)
    omega
  · intro block hLast
    rw [getLast?_eq_getElem?] at hLast
    obtain ⟨start, hStart, rfl⟩ := getElem?_makeBlocks.mp hLast
    have hLt := blockStart_lt_end hStart
    have hNone : (blockStarts code)[(makeBlocks code).length - 1 + 1]? = none := by
      rw [List.getElem?_eq_none_iff, length_makeBlocks]
      omega
    have hEnd : blockEnd code ((makeBlocks code).length - 1) =
        code.length := by
      rw [blockEnd, getD_eq_getElem?_getD, hNone]
      rfl
    simp only [hEnd]
    omega
  · intro hNonempty hNil
    have hLength : (makeBlocks code).length = _ := length_makeBlocks
    have hZero := (List.getElem_of_getElem? (blockStarts_zero hNonempty)).1
    rw [hNil] at hLength
    simp only [length_nil] at hLength
    omega

theorem rebuildCfg_node {node : IRBasicBlock} (h : (rebuildCfg code)[b]? = some node) :
    ∃ block, (makeBlocks code)[b]? = some block ∧ node.firstInstruction = block.firstInstruction ∧
      node.instructionCount = block.instructionCount := by
  obtain ⟨block, hBlock, -, hFirst, hCount⟩ := graphOf_rebuildCfg.block b node h
  exact ⟨block, hBlock, hFirst, hCount⟩

/-- **The blocks partition the instructions.** -/
theorem rebuildCfg_partition (code : List IRInstruction) : Partitions code (rebuildCfg code) := by
  have hGraph : GraphOf _ _ (rebuildCfg code) := graphOf_rebuildCfg
  have hParts : Partitions code _ := makeBlocks_partitions
  refine ⟨?_, ?_, ?_, ?_, ?_⟩
  · intro node hMem
    obtain ⟨b, hb⟩ := mem_iff_getElem?.mp hMem
    obtain ⟨block, hBlock, -, hCount⟩ := rebuildCfg_node hb
    rw [hCount]
    exact hParts.nonempty block (mem_of_getElem? hBlock)
  · intro node hNode
    obtain ⟨block, hBlock, hFirst, -⟩ := rebuildCfg_node hNode
    rw [hFirst]
    exact hParts.first block hBlock
  · intro b node node' hNode hNode'
    obtain ⟨block, hBlock, hFirst, hCount⟩ := rebuildCfg_node hNode
    obtain ⟨block', hBlock', hFirst', -⟩ := rebuildCfg_node hNode'
    rw [hFirst', hFirst, hCount]
    exact hParts.next b block block' hBlock hBlock'
  · intro node hLast
    rw [getLast?_eq_getElem?] at hLast
    obtain ⟨block, hBlock, hFirst, hCount⟩ := rebuildCfg_node hLast
    rw [hFirst, hCount]
    refine hParts.last block ?_
    rw [getLast?_eq_getElem?, ← hGraph.length]
    exact hBlock
  · intro hNonempty hNil
    refine hParts.covers hNonempty (length_eq_zero_iff.mp ?_)
    rw [← hGraph.length, hNil]
    rfl

theorem rebuildCfg_edges (code : List IRInstruction) :
    CfgExact code (Edge code) (rebuildCfg code) := by
  have hGraph : GraphOf _ _ (rebuildCfg code) := graphOf_rebuildCfg
  have hStartOf : ∀ {b : Nat} {node : IRBasicBlock}, (rebuildCfg code)[b]? = some node →
      (blockStarts code)[b]? = some node.firstInstruction := by
    intro b node hNode
    obtain ⟨block, hBlock, hFirst, -⟩ := rebuildCfg_node hNode
    obtain ⟨start, hStart, rfl⟩ := getElem?_makeBlocks.mp hBlock
    rw [hFirst]
    exact hStart
  have hSuccessor : ∀ {a t : Nat} {source : IRBasicBlock}, (rebuildCfg code)[a]? = some source →
      (t ∈ source.successors ↔ ∃ start, (blockStarts code)[t]? = some start ∧
        Edge code source.lastInstruction start) := by
    intro a t source hSource
    obtain ⟨block, hBlock, hFirst, hCount⟩ := rebuildCfg_node hSource
    have hLast : source.lastInstruction = block.lastInstruction := by
      rw [IRBasicBlock.lastInstruction, IRBasicBlock.lastInstruction, hFirst, hCount]
    rw [(hGraph.successors a source hSource).1, mem_cfgEdges, hLast, ← mem_blockTargets hBlock]
    constructor
    · rintro ⟨block', hBlock', ht⟩
      rwa [some.inj (hBlock'.symm.trans hBlock)] at ht
    · intro ht
      exact ⟨block, hBlock, ht⟩
  refine ⟨rebuildCfg_partition code, ?_, ?_, ?_, ?_⟩
  · intro a b source target hSource hTarget
    rw [hSuccessor hSource]
    constructor
    · rintro ⟨start, hStart, hEdge⟩
      rwa [some.inj (hStart.symm.trans (hStartOf hTarget))] at hEdge
    · intro hEdge
      exact ⟨_, hStartOf hTarget, hEdge⟩
  · intro a source hSource b hb
    obtain ⟨start, hStart, -⟩ := (hSuccessor hSource).mp hb
    rw [hGraph.length, length_makeBlocks]
    exact (List.getElem_of_getElem? hStart).1
  · intro a b source target hSource hTarget
    rw [(hGraph.predecessors b target hTarget).1, (hGraph.successors a source hSource).1]
  · intro node hMem
    obtain ⟨b, hb⟩ := mem_iff_getElem?.mp hMem
    exact ⟨(hGraph.successors b node hb).2, (hGraph.predecessors b node hb).2⟩

/-- **The graph is exact.** Every instruction list is cut into its blocks, and if
the instructions have the operands their opcodes read, a block has another as its
successor exactly if the IR semantics can step from its last instruction to the
first one of the other. -/
theorem rebuildCfg_exact (instructions : List IRInstruction)
    (hComplete : ∀ c ∈ instructions, c.isComplete = true) :
    CfgExact instructions (CanStep instructions) (rebuildCfg instructions) := by
  have hEdges := rebuildCfg_edges instructions
  refine { hEdges with successor := ?_ }
  intro a b source target hSource hTarget
  rw [hEdges.successor a b source target hSource hTarget]
  constructor
  · intro hEdge
    obtain ⟨c, hAt, -⟩ := id hEdge
    exact canStep_of_edge hAt (hComplete c (mem_of_getElem? hAt)) hEdge
  · exact edge_of_canStep

end Exact

/-! ### A branch on a constant -/

def constantBranch : List IRInstruction :=
  [{ op := .branchZero, lhs := .int 0, text := some "L" }, { op := .nop },
   { op := .label, text := some "L" }]

theorem rebuildCfg_exact_constantBranch :
    CfgExact constantBranch (CanStep constantBranch) (rebuildCfg constantBranch) :=
  rebuildCfg_exact constantBranch (by decide)

/-- **A branch condition is not looked at.** On words the branch on 0 is always
taken, but its block has the block behind it as a successor too. -/
theorem not_cfgExact_constant : ¬ CfgExact constantBranch (fun p q => ∃ state state', state.pc = p ∧
        (wordMachine fun _ => false).step constantBranch state = .running state' ∧ state'.pc = q)
      (rebuildCfg constantBranch) := by
  intro hExact
  obtain ⟨state, state', hPc, hStep, hPc'⟩ :=
    (hExact.successor 0 1 _ _ rfl rfl).mp (by decide)
  have hTaken : (wordMachine fun _ => false).step constantBranch state =
      .running { state with pc := 2 } := by
    rw [Machine.step, hPc]
    rfl
  rw [hTaken] at hStep
  rw [← Outcome.running.inj hStep] at hPc'
  have hTwo : (2 : Nat) = 1 := hPc'
  cases hTwo

end Mettle.IR
