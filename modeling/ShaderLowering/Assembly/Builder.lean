import ShaderLowering.Assembly.Basic

/-!
# Building assemblies

Definitions are made one at a time, each on the assembly so far.  A definition whose owner does not
exist is refused as a whole: the answer is `none` and there is no new assembly to continue from.

The id of a new entity is the number of its kind defined before it, so ids and arena positions
agree from the start; a type name always answers with its newest definition, and the fields of a
type are listed as they are added.
-/

namespace ShaderLowering

namespace Assembly

def empty (name : String) : Assembly :=
  ⟨name, #[], #[], #[], []⟩

def addType (a : Assembly) (name : String) (kind : TypeKind) (attributes : List Attribute) :
    TypeId × Assembly :=
  let id := EntityId.ofIndex a.types.size
  (id, { a with
    types := a.types.push ⟨id, name, kind, attributes, []⟩
    typeNames := (name, id) :: a.typeNames })

def defineType (a : Assembly) (name : String) (attributes : List Attribute) : TypeId × Assembly :=
  a.addType name .plain attributes

def defineGeneric (a : Assembly) (name : String) : TypeId × Assembly :=
  a.addType name .genericParameter []

/-- Defines a field; its owner must exist, the type it names need not. -/
def defineField (a : Assembly) (owner : TypeId) (name : String) (type : TypeId)
    (attributes : List Attribute) : Option (FieldId × Assembly) :=
  if owner.index < a.types.size then
    let id := EntityId.ofIndex a.fields.size
    some (id, { a with
      types := a.types.modify owner.index fun t => { t with fields := t.fields ++ [id] }
      fields := a.fields.push ⟨id, owner, name, type, attributes⟩ })
  else
    none

/-- Defines a method without code; its owner must exist, the types it names need not. -/
def defineMethod (a : Assembly) (owner : TypeId) (name : String) (returnType : Option TypeId)
    (parameters : List TypeId) (attributes : List Attribute) : Option (MethodId × Assembly) :=
  (a.type? owner).map fun t =>
    let id := EntityId.ofIndex a.methods.size
    let fullName := t.name ++ "::" ++ name
    (id, { a with
      methods := a.methods.push
        ⟨id, owner, name, fullName, returnType, parameters, [], attributes, .empty⟩ })

end Assembly

namespace MethodDef

/-- Declares a local and answers its slot, the one after the receiver, the parameters and the locals
so far. -/
def addLocal (m : MethodDef) (type : TypeId) : Il.Slot × MethodDef :=
  let receiver := (!m.isStatic).toNat
  let slot := receiver + m.parameters.length + m.locals.length
  (UInt32.ofNat slot, { m with locals := m.locals ++ [type] })

def pushInstruction (m : MethodDef) (i : Il.Instruction) : MethodDef :=
  { m with code := m.code.push i }

def push (m : MethodDef) (op : Il.Operation) : MethodDef :=
  m.pushInstruction op.encode

end MethodDef

/-- Changes a method in place, if it is defined; the answer of the change is passed on. -/
def Assembly.editMethod? {α : Type} (a : Assembly) (id : MethodId)
    (edit : MethodDef → α × MethodDef) : Option (α × Assembly) :=
  (a.method? id).map fun m =>
    let (answer, edited) := edit m
    (answer, { a with methods := a.methods.setIfInBounds id.index edited })

end ShaderLowering
