import ShaderLowering.Spirv.Op

/-!
# Instruction streams

An instruction is an opcode number and operand words.  In a stream it begins with one word that
holds its length in words (itself included) in the high half and the opcode in the low half.

`decode` splits a stream and stops at the first length that is zero or reaches past the end, so
what it returns is always a decoding of some beginning of the stream.
-/

namespace ShaderLowering.Spirv

/-- A 32-bit word of a module. -/
abbrev Word := UInt32

/-- One instruction; the opcode may be an unknown one. -/
structure Instruction where
  opcode : UInt16
  operands : List Word
  deriving DecidableEq, Repr

namespace Instruction

/-- The opcode, if it has a name. -/
def op? (i : Instruction) : Option Op :=
  Op.ofCode? i.opcode

/-- The words of an instruction.  The length takes 16 bits; a longer instruction wraps. -/
def encode (i : Instruction) : List Word :=
  UInt32.ofNat ((i.operands.length + 1) * UInt16.size + i.opcode.toNat) :: i.operands

/-- Splits a stream into instructions, up to the first one that is not well formed. -/
def decode : List Word → List Instruction
  | [] => []
  | first :: rest =>
    let count := first.toNat / UInt16.size
    if count = 0 ∨ rest.length + 1 < count then
      []
    else
      ⟨UInt16.ofNat first.toNat, rest.take (count - 1)⟩ :: decode (rest.drop (count - 1))
termination_by words => words.length
decreasing_by simp only [List.length_drop, List.length_cons]; omega

/-- An instruction whose length takes no more than 16 bits is split off a stream as it was
written. -/
theorem decode_encode_append {i : Instruction} (h : i.operands.length + 1 < UInt16.size)
    (rest : List Word) : decode (i.encode ++ rest) = i :: decode rest := by
  have code : i.opcode.toNat < 65536 := i.opcode.toNat_lt
  have half : UInt16.size = 65536 := rfl
  have whole : UInt32.size = 4294967296 := rfl
  rw [half] at h
  have small : (i.operands.length + 1) * 65536 + i.opcode.toNat < UInt32.size := by omega
  have count : ((i.operands.length + 1) * 65536 + i.opcode.toNat) / 65536
      = i.operands.length + 1 := by omega
  have opcode : UInt16.ofNat ((i.operands.length + 1) * 65536 + i.opcode.toNat) = i.opcode := by
    apply UInt16.toNat_inj.mp
    rw [UInt16.toNat_ofNat']
    omega
  rw [encode, List.cons_append, decode, half, UInt32.toNat_ofNat_of_lt' small, count]
  simp [opcode]

end Instruction

def emit (op : Op) (operands : List Word) : List Word :=
  Instruction.encode ⟨op.code, operands⟩

end ShaderLowering.Spirv
