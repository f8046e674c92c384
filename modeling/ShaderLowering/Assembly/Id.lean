/-!
# Entity ids

An assembly is an arena: types, fields and methods are numbered densely from 0 in the order of
their definition, and everything refers to them by number.  The kind of entity is part of the
id's type, so a field id never stands where a method id is meant.

On the wire, inside operand tails, field and method ids take 64 bits.  `ofWire?` refuses a value
that no 32-bit id has, and `ofWire?_eq_some_iff` says that it accepts exactly what `toWire` writes.
-/

namespace ShaderLowering

/-- The kinds of entity that an assembly defines. -/
inductive Entity where
  | type
  | field
  | method
  deriving DecidableEq, Repr

def Entity.name : Entity → String
  | .type => "Type"
  | .field => "Field"
  | .method => "Method"

/-- The number of one entity of an assembly. -/
structure EntityId (kind : Entity) where
  raw : UInt32
  deriving DecidableEq, Repr

abbrev TypeId := EntityId .type

abbrev FieldId := EntityId .field

abbrev MethodId := EntityId .method

namespace EntityId

variable {kind : Entity}

def index (id : EntityId kind) : Nat :=
  id.raw.toNat

/-- The id of the entity at a position; positions stay below `2 ^ 32`. -/
def ofIndex (index : Nat) : EntityId kind :=
  ⟨UInt32.ofNat index⟩

/-- The 64-bit form that operand tails carry. -/
def toWire (id : EntityId kind) : UInt64 :=
  UInt64.ofNat id.raw.toNat

/-- The id that a 64-bit value stands for, if it is in range. -/
def ofWire? (wire : UInt64) : Option (EntityId kind) :=
  if wire.toNat < UInt32.size then some ⟨UInt32.ofNat wire.toNat⟩ else none

/-- An id in messages: its kind, a hash sign and its number. -/
def text (id : EntityId kind) : String :=
  kind.name ++ "#" ++ toString id.raw.toNat

theorem index_ofIndex {index : Nat} (h : index < UInt32.size) :
    (ofIndex index : EntityId kind).index = index := by
  rw [ofIndex, EntityId.index, UInt32.toNat_ofNat_of_lt' h]

theorem ofIndex_index (id : EntityId kind) : ofIndex id.index = id := by
  rw [ofIndex, index, UInt32.ofNat_toNat]

theorem index_injective {a b : EntityId kind} (h : a.index = b.index) : a = b := by
  rw [← ofIndex_index a, h, ofIndex_index]

theorem toNat_toWire (id : EntityId kind) : id.toWire.toNat = id.raw.toNat := by
  have small : id.raw.toNat < UInt64.size := Nat.lt_trans id.raw.toNat_lt (by decide)
  rw [toWire, UInt64.toNat_ofNat_of_lt' small]

theorem ofWire?_eq_some_iff {wire : UInt64} {id : EntityId kind} :
    ofWire? wire = some id ↔ wire = id.toWire := by
  constructor
  · intro h
    unfold ofWire? at h
    split at h
    · rename_i small
      cases h
      apply UInt64.toNat_inj.mp
      rw [toNat_toWire, UInt32.toNat_ofNat_of_lt' small]
    · cases h
  · rintro rfl
    have small : id.raw.toNat < UInt32.size := id.raw.toNat_lt
    rw [ofWire?, toNat_toWire, if_pos small, UInt32.ofNat_toNat]

@[simp] theorem ofWire?_toWire (id : EntityId kind) : ofWire? id.toWire = some id :=
  ofWire?_eq_some_iff.mpr rfl

end EntityId

end ShaderLowering
