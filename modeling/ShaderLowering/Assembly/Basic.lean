import ShaderLowering.Assembly.Id
import ShaderLowering.Assembly.Attribute
import ShaderLowering.Il.Code

/-!
# Assemblies

An assembly is the program that is lowered: three arenas (types, fields, methods) whose entities
refer to each other by id, and an index of type names.  Nothing forces a reference to point at an
entity that exists, so every look-up answers with an `Option`.

The slots of a method are the receiver of a non-static method, its parameters and its locals, in that
order: `MethodDef.slotTypes` lists their types.  The number of slots and the type of each are computed
from the parts, and agree with that list (`length_slotTypes`, `slotTypeAt?_eq`).  Slots are numbered by
words, and a lowered method has variables for as many of them as the number of all slots says as a word
(`MethodDef.backedTypes`): for all of them, unless a word is too short to count them.
-/

namespace ShaderLowering

/-- An ordinary type, or a placeholder that call sites bind to a concrete type. -/
inductive TypeKind where
  | plain
  | genericParameter
  deriving DecidableEq, Repr

/-- A type of an assembly; its fields are listed in the order of their definition. -/
structure TypeDef where
  id : TypeId
  name : String
  kind : TypeKind
  attributes : List Attribute
  fields : List FieldId
  deriving DecidableEq, Repr

namespace TypeDef

def isGeneric (t : TypeDef) : Bool :=
  t.kind == .genericParameter

def representation? (t : TypeDef) : Option (Option String) :=
  Attribute.representation? t.attributes

end TypeDef

structure FieldDef where
  id : FieldId
  owner : TypeId
  name : String
  type : TypeId
  attributes : List Attribute
  deriving DecidableEq, Repr

namespace FieldDef

/-- Whether the field is backed by a global variable. -/
def isStatic (f : FieldDef) : Bool :=
  Attribute.hasStatic f.attributes

/-- Where the global variable of the field lives. -/
def storage (f : FieldDef) : FieldStorage :=
  Attribute.fieldStorage f.attributes

/-- The location that the global variable of the field is decorated with. -/
def location? (f : FieldDef) : Option UInt32 :=
  Attribute.location? f.attributes

end FieldDef

/-- A method of an assembly; no return type means that it returns nothing. -/
structure MethodDef where
  id : MethodId
  owner : TypeId
  name : String
  fullName : String
  returnType : Option TypeId
  parameters : List TypeId
  locals : List TypeId
  attributes : List Attribute
  code : Il.Code

namespace MethodDef

/-- Whether the method is called without a receiver. -/
def isStatic (m : MethodDef) : Bool :=
  Attribute.hasStatic m.attributes

/-- Parameter types as a caller passes them: the receiver first, unless the method is static. -/
def effectiveParameters (m : MethodDef) : List TypeId :=
  if m.isStatic then m.parameters else m.owner :: m.parameters

def effectiveParameterCount (m : MethodDef) : Nat :=
  m.parameters.length + (!m.isStatic).toNat

/-- The types of all slots: effective parameters, then locals. -/
def slotTypes (m : MethodDef) : List TypeId :=
  m.effectiveParameters ++ m.locals

/-- The declared type of the slot at a position. -/
def slotTypeAt? (m : MethodDef) (position : Nat) : Option TypeId :=
  if position < m.effectiveParameterCount then
    m.effectiveParameters[position]?
  else
    m.locals[position - m.effectiveParameterCount]?

/-- The declared type of a slot. -/
def slotType? (m : MethodDef) (slot : Il.Slot) : Option TypeId :=
  m.slotTypeAt? slot.toNat

def slotCount (m : MethodDef) : Nat :=
  m.effectiveParameterCount + m.locals.length

theorem length_effectiveParameters (m : MethodDef) :
    m.effectiveParameters.length = m.effectiveParameterCount := by
  rw [effectiveParameters, effectiveParameterCount]
  cases m.isStatic <;> rfl

theorem length_slotTypes (m : MethodDef) : m.slotTypes.length = m.slotCount := by
  rw [slotTypes, List.length_append, length_effectiveParameters, slotCount]

theorem slotTypeAt?_eq (m : MethodDef) (position : Nat) :
    m.slotTypeAt? position = m.slotTypes[position]? := by
  rw [slotTypeAt?, slotTypes, List.getElem?_append, length_effectiveParameters]

/-- Number of slots that are given variables: the number of slots as a word. -/
def backedCount (m : MethodDef) : Nat :=
  (UInt32.ofNat m.slotCount).toNat

/-- The types of the slots that are given variables. -/
def backedTypes (m : MethodDef) : List TypeId :=
  m.slotTypes.take m.backedCount

theorem backedCount_le (m : MethodDef) : m.backedCount ≤ m.slotCount := by
  rw [backedCount, UInt32.toNat_ofNat']
  exact Nat.mod_le _ _

theorem length_backedTypes (m : MethodDef) : m.backedTypes.length = m.backedCount := by
  rw [backedTypes, List.length_take, length_slotTypes]
  exact Nat.min_eq_left m.backedCount_le

theorem slotTypeAt?_backed (m : MethodDef) {position : Nat} (h : position < m.backedCount) :
    m.slotTypeAt? position = m.backedTypes[position]? := by
  rw [slotTypeAt?_eq, backedTypes, List.getElem?_take_of_lt h]

/-- Every slot is given a variable, if a word can count them. -/
theorem backedCount_eq {m : MethodDef} (h : m.slotCount < UInt32.size) : m.backedCount = m.slotCount :=
  UInt32.toNat_ofNat_of_lt' h

theorem backedTypes_eq {m : MethodDef} (h : m.slotCount < UInt32.size) : m.backedTypes = m.slotTypes := by
  rw [backedTypes, backedCount_eq h, ← m.length_slotTypes, List.take_length]

end MethodDef

/-- The stages of a graphics pipeline that a method may be run in. -/
inductive ExecutionModel where
  | vertex
  | fragment
  | glCompute
  deriving DecidableEq, Repr

def ExecutionModel.name : ExecutionModel → String
  | .vertex => "Vertex"
  | .fragment => "Fragment"
  | .glCompute => "GLCompute"

/-- A method that the finished module exposes, and the stage it runs in. -/
structure EntryPoint where
  method : MethodId
  model : ExecutionModel
  deriving DecidableEq, Repr

/-- A program: its entities, and its type names with the newest definition first. -/
structure Assembly where
  name : String
  types : Array TypeDef
  fields : Array FieldDef
  methods : Array MethodDef
  typeNames : List (String × TypeId)

namespace Assembly

def type? (a : Assembly) (id : TypeId) : Option TypeDef :=
  a.types[id.index]?

def field? (a : Assembly) (id : FieldId) : Option FieldDef :=
  a.fields[id.index]?

def method? (a : Assembly) (id : MethodId) : Option MethodDef :=
  a.methods[id.index]?

/-- The type that was last defined under a name. -/
def findType? (a : Assembly) (name : String) : Option TypeDef :=
  (a.typeNames.lookup name).bind a.type?

/-- The fields that an instance of a type consists of, in the order of their definition. -/
def instanceFields (a : Assembly) (t : TypeDef) : List FieldDef :=
  (t.fields.filterMap a.field?).filter fun f => !f.isStatic

end Assembly

end ShaderLowering
