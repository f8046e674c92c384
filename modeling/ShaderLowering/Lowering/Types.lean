import ShaderLowering.Lowering.Emission
import ShaderLowering.Lowering.Representation

/-!
# Constructing types

A front-end type is looked up before it is requested, so an id that nothing defines takes no slot.
Its construction depends on what kind of type it is: a placeholder has none, a type with a platform
representation resolves to the shape that the representation names, and every other type becomes a
struct of the types of its instance fields, constructed in the order of the fields.

The functions named `build…` are the constructions themselves; the others request them.
-/

namespace ShaderLowering

open Construction (Task)
open Spirv

namespace Construct

def typeDef (a : Assembly) (id : TypeId) : Construct TypeDef :=
  Task.ofOption (I := lowering) (.unresolvedType id.raw) (a.type? id)

def shape (s : Shape) : Construct Id :=
  Task.ask (I := lowering) (.shape s)

/-- The type that stands for a front-end type. -/
def type (a : Assembly) (id : TypeId) : Construct Id := do
  -- A type that is not defined takes no slot.
  let _ ← typeDef a id
  Task.ask (I := lowering) (.type id)

/-- The type of what a method returns; nothing is the void type. -/
def returnType (a : Assembly) : Option TypeId → Construct Id
  | none => shape .void
  | some id => type a id

/-- The type that a representation name of a type asks for; `none` if its head is not known. -/
def representation? (a : Assembly) (t : TypeDef) (name : String) : Construct (Option Id) :=
  let unsupported : Fault := .unsupportedBuiltInType t.name name
  match Representation.parse name with
  | .unknown => pure none
  | .malformed => Task.fail (I := lowering) unsupported
  | .void => some <$> shape .void
  | .int width signed => some <$> shape (.int width signed)
  | .float width => some <$> shape (.float width)
  | .vector element size => do
    let elementDef ← Task.ofOption (I := lowering) unsupported (a.findType? element)
    let elementType ← type a elementDef.id
    -- A bad size is noticed only when the element has been constructed.
    let size ← Task.ofOption (I := lowering) unsupported size
    some <$> shape (.vector elementType size)

/-- Constructs the struct of the instance fields of a type. -/
def buildStruct (a : Assembly) (t : TypeDef) : Construct Id := do
  let members ← (a.instanceFields t).mapM fun field => type a field.type
  declare (.struct members)

def buildType (a : Assembly) (t : TypeDef) : Construct Id :=
  if t.isGeneric then
    Task.fail (I := lowering) (.unboundGenericParameter t.name)
  else
    match t.representation? with
    | none => buildStruct a t
    | some none => Task.fail (I := lowering) (.missingTargetName t.name)
    | some (some name) => do
      let resolved ← representation? a t name
      Task.ofOption (I := lowering) (.unsupportedBuiltInType t.name name) resolved

end Construct

end ShaderLowering
