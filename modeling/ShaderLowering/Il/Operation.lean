import ShaderLowering.Il.Tail

/-!
# Operations

`Operation` is an instruction with its operands told apart; `Instruction` is the same thing on the
wire, an opcode and a tail of bytes.  `Operation.encode` writes, `Instruction.decode` reads.

All operands of an instruction are read before any of them is used.  Splitting the two steps makes
that order a matter of types: lowering starts from an `Operation`, so a short tail is reported
before anything else can go wrong.  A tail may be longer than its operands; what is left over is
not looked at.

Main statement: `Instruction.decode_encode`, what was written is read back.  It needs the operands to
have a form on the wire: no slot bears the number that stands for no slot, and the arguments of a
call can be counted in a word.
-/

namespace ShaderLowering.Il

/-- An instruction on the wire. -/
structure Instruction where
  opcode : Opcode
  tail : List UInt8
  deriving DecidableEq, Repr

/-- An instruction with its operands.  Methods and fields are still 64-bit wire values. -/
inductive Operation where
  | call (result : Option Slot) (callee : UInt64) (arguments : List Slot)
  | ret
  | returnValue (value : Option Slot)
  | load (destination source : Slot)
  | loadField (destination : Slot) (field : UInt64)
  | storeField (field : UInt64) (source : Slot)
  | loadUInt32 (destination : Slot) (value : UInt32)
  | loadFloat32 (destination : Slot) (bits : UInt32)
  deriving DecidableEq, Repr

namespace Operation

def opcode : Operation → Opcode
  | .call .. => .call
  | .ret => .ret
  | .returnValue _ => .returnValue
  | .load .. => .load
  | .loadField .. => .loadField
  | .storeField .. => .storeField
  | .loadUInt32 .. => .loadUInt32
  | .loadFloat32 .. => .loadFloat32

/-- The operands of an operation, each big-endian, in the order of the wire. -/
def tail : Operation → List UInt8
  | .call result callee arguments =>
    optionalSlotBytes result ++ wideBytes callee ++ slotsBytes arguments
  | .ret => []
  | .returnValue value => optionalSlotBytes value
  | .load destination source => wordBytes destination ++ wordBytes source
  | .loadField destination field => wordBytes destination ++ wideBytes field
  | .storeField field source => wideBytes field ++ wordBytes source
  | .loadUInt32 destination value => wordBytes destination ++ wordBytes value
  | .loadFloat32 destination bits => wordBytes destination ++ wordBytes bits

def encode (op : Operation) : Instruction :=
  ⟨op.opcode, op.tail⟩

/-- Reads the operands that belong to an opcode. -/
def read : Opcode → Read Operation
  | .call => do
    let result ← Reader.optionalSlot
    let callee ← Reader.wide
    let arguments ← Reader.slots
    pure (.call result callee arguments)
  | .ret => pure .ret
  | .returnValue => do
    let value ← Reader.optionalSlot
    pure (.returnValue value)
  | .load => do
    let destination ← Reader.word
    let source ← Reader.word
    pure (.load destination source)
  | .loadField => do
    let destination ← Reader.word
    let field ← Reader.wide
    pure (.loadField destination field)
  | .storeField => do
    let field ← Reader.wide
    let source ← Reader.word
    pure (.storeField field source)
  | .loadUInt32 => do
    let destination ← Reader.word
    let value ← Reader.word
    pure (.loadUInt32 destination value)
  | .loadFloat32 => do
    let destination ← Reader.word
    let bits ← Reader.word
    pure (.loadFloat32 destination bits)

end Operation

namespace Instruction

def reader (i : Instruction) : Reader :=
  Reader.start i.opcode i.tail

/-- The operation that an instruction carries, or where its tail ends too early. -/
def decode (i : Instruction) : Except Truncated Operation :=
  (Operation.read i.opcode i.reader).1

end Instruction

/-! ## What was written is read back -/

namespace Operation

/-- Whether the operands can be told from their bytes. -/
def Encodable : Operation → Prop
  | .call result _ arguments => result ≠ some noSlot ∧ arguments.length < UInt32.size
  | .returnValue value => value ≠ some noSlot
  | _ => True

/-- Reading the operands of an operation gives them back, and leaves what follows them. -/
theorem read_tail_append {op : Operation} (h : op.Encodable) (rest : List UInt8) :
    read op.opcode (Reader.start op.opcode (op.tail ++ rest))
      = (.ok op, ⟨op.opcode, op.tail.length, rest⟩) := by
  cases op with
  | call result callee arguments =>
    obtain ⟨bound, counted⟩ := h
    simp only [read, opcode, tail, Reader.start, List.append_assoc, Reader.bind_apply,
      Reader.optionalSlot_optionalSlotBytes bound, Reader.wide_wideBytes,
      Reader.slots_slotsBytes counted, List.length_append, length_optionalSlotBytes,
      length_wideBytes, length_slotsBytes]
    show (Except.ok (Operation.call result callee arguments), _) = _
    congr 2
    omega
  | ret => rfl
  | returnValue value =>
    simp only [read, opcode, tail, Reader.start, Reader.bind_apply,
      Reader.optionalSlot_optionalSlotBytes h, length_optionalSlotBytes]
    rfl
  | load destination source | loadUInt32 destination value | loadFloat32 destination bits =>
    simp only [read, opcode, tail, Reader.start, List.append_assoc, Reader.bind_apply,
      Reader.word_wordBytes]
    rfl
  | loadField destination field | storeField field source =>
    simp only [read, opcode, tail, Reader.start, List.append_assoc, Reader.bind_apply,
      Reader.word_wordBytes, Reader.wide_wideBytes]
    rfl

end Operation

/-- An operation that was put on the wire is read back. -/
theorem Instruction.decode_encode {op : Operation} (h : op.Encodable) :
    op.encode.decode = .ok op := by
  have whole := Operation.read_tail_append h []
  rw [List.append_nil] at whole
  show (Operation.read op.opcode (Reader.start op.opcode op.tail)).1 = _
  rw [whole]

end ShaderLowering.Il
