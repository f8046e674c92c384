import ShaderLowering.Il.Operation

/-!
# Method bodies

The code of a method is one flat byte buffer that holds all operand tails end to end, and an index
of entries that says, per instruction, its opcode and the part of the buffer that is its tail.
Every entry lies inside the buffer, which is a field of the type, so appending never disturbs a
tail written earlier: `instructions_push` says that the instructions of a body are exactly those
appended to it, in order.
-/

namespace ShaderLowering.Il

/-- Index entry: an opcode and the buffer positions between which its tail lies. -/
structure Entry where
  opcode : Opcode
  first : Nat
  last : Nat
  deriving DecidableEq, Repr

/-- The code of a method: all tails in one buffer, and where each begins and ends. -/
structure Code where
  buffer : Array UInt8
  entries : Array Entry
  within : ∀ e ∈ entries, e.last ≤ buffer.size

namespace Code

def empty : Code :=
  ⟨#[], #[], by simp⟩

def size (code : Code) : Nat :=
  code.entries.size

def isEmpty (code : Code) : Bool :=
  code.entries.isEmpty

/-- The instruction that an index entry points at. -/
def instruction (code : Code) (e : Entry) : Instruction :=
  ⟨e.opcode, (code.buffer.extract e.first e.last).toList⟩

def instructions (code : Code) : List Instruction :=
  code.entries.toList.map code.instruction

/-- Appends an instruction; its tail goes to the end of the buffer. -/
def push (code : Code) (i : Instruction) : Code where
  buffer := code.buffer ++ i.tail.toArray
  entries := code.entries.push
    ⟨i.opcode, code.buffer.size, code.buffer.size + i.tail.length⟩
  within := by
    intro e he
    rcases Array.mem_push.mp he with old | rfl
    · have inside := code.within e old
      simp only [Array.size_append]
      omega
    · simp

@[simp] theorem instructions_empty : empty.instructions = [] := rfl

theorem instructions_push (code : Code) (i : Instruction) :
    (code.push i).instructions = code.instructions ++ [i] := by
  have kept : ∀ e ∈ code.entries.toList,
      (code.push i).instruction e = code.instruction e := by
    intro e he
    have inside := code.within e (Array.mem_toList_iff.mp he)
    simp only [instruction, push, Array.extract_append]
    have none : i.tail.toArray.extract (e.first - code.buffer.size)
        (e.last - code.buffer.size) = #[] := by
      rw [Nat.sub_eq_zero_of_le inside]
      simp
    rw [none, Array.append_empty]
  have added : (code.push i).instruction
      ⟨i.opcode, code.buffer.size, code.buffer.size + i.tail.length⟩ = i := by
    simp [instruction, push]
  have split : (code.push i).instructions
      = code.entries.toList.map (code.push i).instruction
        ++ [(code.push i).instruction
            ⟨i.opcode, code.buffer.size, code.buffer.size + i.tail.length⟩] := by
    simp [instructions, push]
  rw [split, added, List.map_congr_left kept]
  rfl

theorem size_eq_length (code : Code) : code.size = code.instructions.length := by
  simp [size, instructions]

end Code

end ShaderLowering.Il
