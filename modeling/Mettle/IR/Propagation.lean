import Mettle.Lib.Loops
import Mettle.IR.Paths

/-!
# Mettle — copy and constant propagation

The model of `ir_copy_and_constant_propagation_pass`: up to eight walks over the
instructions, each with a map of temps and a map of symbols to the operands they were
copied from. Operands are replaced while the walk goes on. At a label the map of temps is
the intersection of the maps at the jumps to it, as far as they have been seen; the maps
of the labels are kept from one walk to the next.

The map forgets a temp when it is overwritten and a symbol-valued entry when the symbol is.
It does not forget an entry whose value is a temp that is overwritten, it knows nothing of
the memory kernels and of some writes of the rotate instruction, and in the first walk a
label is entered with what is known on the ways that come from above.
-/

namespace Mettle.IR

open Mettle.Lib

-- ---
-- Value maps
-- ---

/-- `IRTempValueMap`: names with the operands they are copies of, no name twice. -/
abbrev ValueMap := List (String × IROperand)

/-- The value a temp is known to have. -/
def irTempValueMapLookup (map : ValueMap) (name : String) : Option IROperand :=
  map.lookup name

/-- Forgets a name. -/
def irTempValueMapRemove (map : ValueMap) (name : String) : ValueMap :=
  map.filter fun entry => entry.1 != name

/-- Enters or replaces a value. -/
def irTempValueMapSet (map : ValueMap) (name : String) (value : IROperand) : ValueMap :=
  if map.any fun entry => entry.1 == name then
    map.map fun entry => if entry.1 == name then (name, value) else entry
  else map ++ [(name, value)]

/-- Forgets the names that hold the symbol, or any. -/
def irTempValueMapRemoveSymbolValues (map : ValueMap) (symbolName : Option String) : ValueMap :=
  map.filter fun entry =>
    match entry.2 with
    | .symbol name => !(symbolName.isNone || symbolName == some name)
    | _ => true

/-- Keeps what both maps agree on. -/
def irTempValueMapIntersectWith (dest other : ValueMap) : ValueMap :=
  dest.filter fun entry =>
    match irTempValueMapLookup other entry.1 with
    | some value => irOperandEquals entry.2 value
    | none => false

/-- Forgets a symbol and its copies. -/
def irSymbolValueMapInvalidateName (map : ValueMap) (symbolName : String) : ValueMap :=
  irTempValueMapRemoveSymbolValues (irTempValueMapRemove map symbolName) (some symbolName)

/-- `IRLabelValueMap`: the map with which a label is entered, once one has come in. -/
abbrev LabelMap := List (String × ValueMap)

/-- Merges a map into that of a label. -/
def irLabelValueMapMergeIncoming (labels : LabelMap) (label : String) (incoming : ValueMap) :
    LabelMap × Bool :=
  match labels.lookup label with
  | none => (labels ++ [(label, incoming)], true)
  | some inMap =>
    let merged := irTempValueMapIntersectWith inMap incoming
    (labels.map fun entry => if entry.1 == label then (label, merged) else entry,
      merged.length != inMap.length)

-- ---
-- Replacing operands
-- ---

/-- Follow the maps, for at most `depth` links; a map that is not given is not used. -/
def irResolvePropagatedValue (tempMap : ValueMap) (symbolMap : Option ValueMap) :
    Nat → IROperand → IROperand
  | 0, operand => operand
  | depth + 1, operand =>
    match operand with
    | .temp name =>
      match irTempValueMapLookup tempMap name with
      | some mapped => irResolvePropagatedValue tempMap symbolMap depth mapped
      | none => operand
    | .symbol name =>
      match symbolMap.bind (irTempValueMapLookup · name) with
      | some mapped => irResolvePropagatedValue tempMap symbolMap depth mapped
      | none => operand
    | _ => operand

def mappedOperand (tempMap : ValueMap) (symbolMap : Option ValueMap) : IROperand → Option IROperand
  | .temp name => irTempValueMapLookup tempMap name
  | .symbol name => symbolMap.bind (irTempValueMapLookup · name)
  | _ => none

/-- `depth` starts at 0 and a value is returned as it is when it exceeds 64. -/
def irTryPropagateOperand (tempMap : ValueMap) (symbolMap : Option ValueMap)
    (operand : IROperand) : IROperand :=
  match mappedOperand tempMap symbolMap operand with
  | some mapped => irResolvePropagatedValue tempMap symbolMap 65 mapped
  | none => operand

/-- Puts known values for the operands read. -/
def irPropagateInstructionOperands (tempMap symbolMap : ValueMap) (instruction : IRInstruction) :
    IRInstruction :=
  let propagate := irTryPropagateOperand tempMap (some symbolMap)
  let propagateTemp := irTryPropagateOperand tempMap none
  match instruction.op with
  | .store =>
    { instruction with
      dest := propagate instruction.dest
      lhs := propagate instruction.lhs
      rhs := propagate instruction.rhs }
  | .branchZero => { instruction with lhs := propagateTemp instruction.lhs }
  | .branchEq =>
    { instruction with
      lhs := propagateTemp instruction.lhs
      rhs := propagateTemp instruction.rhs }
  | .assign => { instruction with lhs := propagate instruction.lhs }
  | .addressOf | .load | .binary | .unary | .cast | .new | .call | .callIndirect | .return_ =>
    { instruction with
      lhs := propagateTemp instruction.lhs
      rhs := propagateTemp instruction.rhs
      arguments := instruction.arguments.map propagate }
  | _ => instruction

def instructionPropagates (tempMap symbolMap : ValueMap) (instruction : IRInstruction) : Bool :=
  let mapped := fun operand => (mappedOperand tempMap (some symbolMap) operand).isSome
  let mappedTemp := fun operand => (mappedOperand tempMap none operand).isSome
  match instruction.op with
  | .store => mapped instruction.dest || mapped instruction.lhs || mapped instruction.rhs
  | .branchZero => mappedTemp instruction.lhs
  | .branchEq => mappedTemp instruction.lhs || mappedTemp instruction.rhs
  | .assign => mapped instruction.lhs
  | .addressOf | .load | .binary | .unary | .cast | .new | .call | .callIndirect | .return_ =>
    mappedTemp instruction.lhs || mappedTemp instruction.rhs || instruction.arguments.any mapped
  | _ => false

-- ---
-- One walk
-- ---

structure PropagationState where
  map : ValueMap
  symbolMap : ValueMap
  labelIn : LabelMap
  flowChanged : Bool
  anyChanged : Bool
  -- the opcodes in front of the instruction, the last one first
  before : List IROpcode

def fallThrough (before : List IROpcode) : Bool :=
  !before.isEmpty &&
    match before.dropWhile (· == .nop) with
    | [] => true
    | op :: _ => op != .jump && op != .return_

def PropagationState.merge (state : PropagationState) (label : String) : PropagationState :=
  let (labelIn, changed) := irLabelValueMapMergeIncoming state.labelIn label state.map
  { state with labelIn, flowChanged := state.flowChanged || changed }

/-- The maps behind a label. -/
def PropagationState.enterLabel (state : PropagationState) (label : String) :
    PropagationState :=
  let state := if fallThrough state.before then state.merge label else state
  { state with map := (state.labelIn.lookup label).getD [], symbolMap := [] }

/-- Any operand that is there. -/
def irOperandIsPropagatableValue : IROperand → Bool
  | .none => false
  | _ => true

def operandName : IROperand → Option String
  | .temp name | .symbol name | .string name | .label name => some name
  | _ => none

def recordTemp (map : ValueMap) (instruction : IRInstruction) : ValueMap :=
  match instruction.dest with
  | .temp name =>
    if irInstructionWritesTemp instruction then
      let map := irTempValueMapRemove map name
      if instruction.op = .assign ∧ irOperandIsPropagatableValue instruction.lhs ∧
          instruction.lhs ≠ .temp name then
        irTempValueMapSet map name instruction.lhs
      else map
    else map
  | _ => map

def recordSymbol (map symbolMap : ValueMap) (instruction : IRInstruction) : ValueMap × ValueMap :=
  match instruction.dest with
  | .symbol name =>
    if irInstructionWritesSymbol instruction then
      let map := irTempValueMapRemoveSymbolValues map (some name)
      let symbolMap := irSymbolValueMapInvalidateName symbolMap name
      if instruction.op = .assign ∧ irOperandIsPropagatableValue instruction.lhs ∧
          instruction.lhs ≠ .symbol name then
        (map, irTempValueMapSet symbolMap name instruction.lhs)
      else (map, symbolMap)
    else (map, symbolMap)
  | _ => (map, symbolMap)

def recordRotateAdd (symbolMap : ValueMap) (instruction : IRInstruction) : ValueMap :=
  match instruction.op, operandName instruction.dest with
  | .rotateAdd, some dest =>
    let symbolMap := irSymbolValueMapInvalidateName symbolMap dest
    let symbolMap :=
      match operandName instruction.lhs with
      | some name => irSymbolValueMapInvalidateName symbolMap name
      | none => symbolMap
    match operandName instruction.rhs with
    | some name => irSymbolValueMapInvalidateName symbolMap name
    | none => symbolMap
  | _, _ => symbolMap

def IROpcode.forgetsSymbols : IROpcode → Bool
  | .store | .call | .callIndirect | .inlineAsm => true
  | _ => false

def PropagationState.record (state : PropagationState) (instruction : IRInstruction) :
    PropagationState :=
  let map := recordTemp state.map instruction
  let (map, symbolMap) := recordSymbol map state.symbolMap instruction
  let symbolMap := recordRotateAdd symbolMap instruction
  if instruction.op.forgetsSymbols then
    { state with map := irTempValueMapRemoveSymbolValues map none, symbolMap := [] }
  else { state with map, symbolMap }

def IROpcode.isBranch : IROpcode → Bool
  | .jump | .branchZero | .branchEq => true
  | _ => false

def PropagationState.leave (state : PropagationState) (instruction : IRInstruction) :
    PropagationState :=
  let state :=
    match instruction.text with
    | some label => if instruction.op.isBranch then state.merge label else state
    | none => state
  if instruction.op = .jump ∨ instruction.op = .return_ then
    { state with map := [], symbolMap := [] }
  else state

def PropagationState.enter (state : PropagationState) (instruction : IRInstruction) :
    PropagationState :=
  match instruction.op, instruction.text with
  | .label, some label => state.enterLabel label
  | _, _ => state

def propagationStep (state : PropagationState) (instruction : IRInstruction) :
    PropagationState × IRInstruction :=
  let state := state.enter instruction
  let propagates := instructionPropagates state.map state.symbolMap instruction
  let instruction := irPropagateInstructionOperands state.map state.symbolMap instruction
  let state := (state.record instruction).leave instruction
  ({ state with
      anyChanged := state.anyChanged || propagates
      before := instruction.op :: state.before }, instruction)

def walkStart (labelIn : LabelMap) (anyChanged : Bool) : PropagationState :=
  { map := [], symbolMap := [], labelIn, flowChanged := false, anyChanged, before := [] }

def propagationWalk (labelIn : LabelMap) (anyChanged : Bool) (instructions : List IRInstruction) :
    List IRInstruction :=
  mapAccum propagationStep (walkStart labelIn anyChanged) instructions

def propagationEnd (labelIn : LabelMap) (anyChanged : Bool) (instructions : List IRInstruction) :
    PropagationState :=
  stateAt (fun state instruction => (propagationStep state instruction).1)
    (walkStart labelIn anyChanged) instructions instructions.length

def propagationLoop : Nat → LabelMap → Bool → List IRInstruction → List IRInstruction × Bool
  | 0, _, anyChanged, instructions => (instructions, anyChanged)
  | rounds + 1, labelIn, anyChanged, instructions =>
    let last := propagationEnd labelIn anyChanged instructions
    let instructions := propagationWalk labelIn anyChanged instructions
    if last.flowChanged then
      propagationLoop rounds last.labelIn last.anyChanged instructions
    else (instructions, last.anyChanged)

/-- At most eight rounds of the loop. -/
def irCopyAndConstantPropagationPass (function : IRFunction) : IRFunction × Bool :=
  let (instructions, changed) := propagationLoop 8 [] false function.instructions
  ({ function with instructions }, changed)

end Mettle.IR
