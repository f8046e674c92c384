import ShaderLowering.Bytes
import ShaderLowering.Spirv.Instruction

/-!
# Where instructions hold ids

Laying out a module moves and renumbers ids, so it has to know which operands are ids.  The opcode
decides; operands of an opcode that is never written are left alone.  In an entry point the interface
ids begin after the name, whose end is the first word with a zero byte.

Which id a declaration gives a meaning to is asked of any opcode that is known, so the answer depends
on the table of opcodes.
-/

namespace ShaderLowering.Spirv

def hasZeroByte (w : Word) : Bool :=
  (Bytes.ofWord w).any (· == 0)

namespace Instruction

/-- Position of the first interface id of an entry point: one past the end of its name. -/
def interfaceStart (operands : List Word) : Nat :=
  match (operands.drop 2).findIdx? hasZeroByte with
  | some last => last + 3
  | none => operands.length

/-- Positions that hold ids by the rule of the opcode, whether there are that many operands or
not. -/
def nominalIdPositions (i : Instruction) : List Nat :=
  match i.op? with
  | some .typeVoid | some .typeInt | some .typeFloat | some .label | some .returnValue
  | some .decorate | some .executionMode => [0]
  | some .typeVector | some .constant | some .variable | some .functionParameter
  | some .store => [0, 1]
  -- Between the ids stands the storage class.
  | some .typePointer => [0, 2]
  | some .function => [0, 1, 3]
  | some .load => [0, 1, 2]
  | some .typeStruct | some .typeFunction | some .functionCall => List.range i.operands.length
  -- The execution model goes before the function, the name goes after it.
  | some .entryPoint =>
    let start := interfaceStart i.operands
    1 :: List.range' start (i.operands.length - start)
  | _ => []

/-- Positions of the operands that hold ids, in ascending order. -/
def idPositions (i : Instruction) : List Nat :=
  i.nominalIdPositions.filter (· < i.operands.length)

/-- The ids among the operands, in order. -/
def ids (i : Instruction) : List Word :=
  i.idPositions.filterMap (i.operands[·]?)

/-- Replaces the ids among the operands and keeps everything else. -/
def mapIds (f : Word → Word) (i : Instruction) : Instruction :=
  let positions := i.idPositions
  ⟨i.opcode, i.operands.mapIdx fun p w => if p ∈ positions then f w else w⟩

/-- The id that a declaration gives a meaning to: the first operand, except where the type comes
first. -/
def resultId? (table : OpTable) (i : Instruction) : Option Word :=
  if table.knows i.opcode then
    match i.op? with
    | some .constant | some .variable => i.operands[1]?
    | _ => i.operands[0]?
  else
    none

end Instruction

end ShaderLowering.Spirv
