import ShaderLowering.Spirv.Instruction

/-!
# Result ids

Everything that an instruction can refer to has a result id.  An `IdSource` issues them in order,
beginning with 1.  It counts how many it has issued; the word of the next id and the bound of a
module are both read off that count, modulo `2 ^ 32`.
-/

namespace ShaderLowering.Spirv

structure Id where
  raw : Word
  deriving DecidableEq, Repr

def Id.text (id : Id) : String :=
  "%" ++ toString id.raw.toNat

/-- The ids of one run, by how many of them are taken. -/
structure IdSource where
  issued : Nat
  deriving DecidableEq, Repr

namespace IdSource

def fresh : IdSource :=
  ⟨0⟩

def next (source : IdSource) : Id × IdSource :=
  (⟨UInt32.ofNat (source.issued + 1)⟩, ⟨source.issued + 1⟩)

/-- One more than the highest id issued so far. -/
def bound (source : IdSource) : Word :=
  UInt32.ofNat (source.issued + 1)

/-- Takes a number of ids one after another; answers the last one taken, or the given one. -/
def take : Nat → Option Id → IdSource → Option Id × IdSource
  | 0, last, source => (last, source)
  | n + 1, _, source => take n (some source.next.1) source.next.2

end IdSource

end ShaderLowering.Spirv
