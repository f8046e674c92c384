import ShaderLowering.Assembly.Builder

/-!
# Edits

An assembly comes about by edits: types, fields and methods are defined, and locals and lines of code are
added to methods, in any order.  An edit that names an owner or a method that does not exist changes
nothing.

A `Statement` is an operation as it is put into a method, with the ids of the methods and fields that it
names.  A `CodeLine` is a statement or an instruction whose tail may be anything.
-/

namespace ShaderLowering

/-- An operation with the ids of the methods and fields that it names. -/
inductive Statement where
  | call (result : Option Il.Slot) (callee : MethodId) (arguments : List Il.Slot)
  | ret
  | returnValue (value : Il.Slot)
  | load (destination source : Il.Slot)
  | loadField (destination : Il.Slot) (field : FieldId)
  | storeField (field : FieldId) (source : Il.Slot)
  | loadUInt32 (destination : Il.Slot) (value : UInt32)
  | loadFloat32 (destination : Il.Slot) (bits : UInt32)
  deriving DecidableEq, Repr

namespace Statement

/-- The operation that is put on the wire for a statement. -/
def operation : Statement → Il.Operation
  | .call result callee arguments => .call result callee.toWire arguments
  | .ret => .ret
  | .returnValue value => .returnValue (some value)
  | .load destination source => .load destination source
  | .loadField destination field => .loadField destination field.toWire
  | .storeField field source => .storeField field.toWire source
  | .loadUInt32 destination value => .loadUInt32 destination value
  | .loadFloat32 destination bits => .loadFloat32 destination bits

end Statement

/-- What is appended to the code of a method. -/
inductive CodeLine where
  | statement (s : Statement)
  | raw (i : Il.Instruction)
  deriving DecidableEq, Repr

def CodeLine.instruction : CodeLine → Il.Instruction
  | .statement s => s.operation.encode
  | .raw i => i

/-- One step in which an assembly is put together. -/
inductive Edit where
  | type (name : String) (attributes : List Attribute)
  | generic (name : String)
  | field (owner : TypeId) (name : String) (type : TypeId) (attributes : List Attribute)
  | method (owner : TypeId) (name : String) (returnType : Option TypeId) (parameters : List TypeId)
      (attributes : List Attribute)
  | localSlot (method : MethodId) (type : TypeId)
  | write (method : MethodId) (line : CodeLine)
  deriving DecidableEq, Repr

namespace Assembly

def edit (a : Assembly) : Edit → Assembly
  | .type name attributes => (a.defineType name attributes).2
  | .generic name => (a.defineGeneric name).2
  | .field owner name type attributes =>
    ((a.defineField owner name type attributes).map Prod.snd).getD a
  | .method owner name returnType parameters attributes =>
    ((a.defineMethod owner name returnType parameters attributes).map Prod.snd).getD a
  | .localSlot method type =>
    ((a.editMethod? method fun m => m.addLocal type).map Prod.snd).getD a
  | .write method line =>
    ((a.editMethod? method fun m => ((), m.pushInstruction line.instruction)).map Prod.snd).getD a

def editAll (a : Assembly) (edits : List Edit) : Assembly :=
  edits.foldl edit a

end Assembly

end ShaderLowering
