import ShaderLowering.Lowering.Types

/-!
# Constructing constants and global variables

A constant is told apart by its type and its bits.  A global variable belongs to a static field; it
is checked to be one before it is requested, is decorated with the location of its field if there
is one, and joins the interface of the module when it is made.
-/

namespace ShaderLowering

open Construction (Task)
open Spirv

namespace Construct

/-- The constant with a type and bits. -/
def constant (valueType : Id) (bits : Word) : Construct Id :=
  Task.ask (I := lowering) (.constant valueType bits)

def buildConstant (valueType : Id) (bits : Word) : Construct Id :=
  declare (.constant valueType bits)

def fieldDef (a : Assembly) (id : FieldId) : Construct FieldDef :=
  Task.ofOption (I := lowering) (.unresolvedField id.toWire) (a.field? id)

/-- The global variable behind a static field. -/
def global (a : Assembly) (id : FieldId) : Construct GlobalVariable := do
  let field ← fieldDef a id
  if field.isStatic then
    Task.ask (I := lowering) (.variable id)
  else
    Task.fail (I := lowering) (.nonStaticField field.name)

def buildGlobal (a : Assembly) (id : FieldId) (field : FieldDef) : Construct GlobalVariable := do
  let storage := field.storage.storageClass
  let valueType ← type a field.type
  let pointerType ← shape (.pointer storage valueType)
  let variableId ← declare (.variable pointerType storage)
  match field.location? with
  | some location => decorate variableId location
  | none => pure ()
  -- Whoever finds the variable in the interface finds it decorated.
  let made : GlobalVariable := ⟨variableId, id, storage, valueType⟩
  expose made
  pure made

end Construct

end ShaderLowering
