import ShaderLowering.Bytes
import ShaderLowering.Spirv.Instruction

/-!
# Modules

A module is a byte string: little-endian words, five header words first, instructions after them.
Looking into a module never fails; a byte string that is cut short just has fewer words.
-/

namespace ShaderLowering.Spirv

/-- A module as bytes. -/
structure Module where
  code : List UInt8
  deriving DecidableEq, Repr

namespace Module

def headerSize : Nat := 5

def boundIndex : Nat := 3

def ofWords (words : List Word) : Module :=
  ⟨words.flatMap Bytes.ofWord⟩

/-- The words of a module; an incomplete last word does not count. -/
def words (m : Module) : List Word :=
  Bytes.words m.code

/-- The header words, as many as there are. -/
def header (m : Module) : List Word :=
  m.words.take headerSize

/-- The id bound of the header, zero if the module ends before it. -/
def bound (m : Module) : Word :=
  m.words[boundIndex]?.getD 0

def instructions (m : Module) : List Instruction :=
  Instruction.decode (m.words.drop headerSize)

@[simp] theorem words_ofWords (ws : List Word) : (ofWords ws).words = ws :=
  Bytes.words_flatMap_ofWord ws

end Module

end ShaderLowering.Spirv
