import ShaderLowering.Lowering.Function
import ShaderLowering.Spirv.Enumerants

/-!
# Keys of entities

A run constructs five kinds of entity, each at most once: the type that stands for a front-end
type, the type of a built-in shape, constants, global variables, and functions.  A `Key` says which
entity is meant.  A shape names its components by id; components are constructed first, so two
shapes are equal exactly when the types they declare would be.
-/

namespace ShaderLowering

open Spirv

def wordText (w : Word) : String :=
  toString w.toNat

/-- The structure of a built-in type. -/
inductive Shape where
  | void
  | int (width : Word) (signed : Bool)
  | float (width : Word)
  | vector (element : Id) (size : Word)
  | pointer (storage : StorageClass) (pointee : Id)
  | function (returnType : Id) (parameters : List Id)
  deriving DecidableEq, Repr

namespace Shape

/-- The opcode that declares a type of this shape. -/
def op : Shape → Op
  | .void => .typeVoid
  | .int .. => .typeInt
  | .float _ => .typeFloat
  | .vector .. => .typeVector
  | .pointer .. => .typePointer
  | .function .. => .typeFunction

/-- The operands after the result id. -/
def operands : Shape → List Word
  | .void => []
  | .int width signed => [width, if signed then 1 else 0]
  | .float width => [width]
  | .vector element size => [element.raw, size]
  | .pointer storage pointee => [storage.code, pointee.raw]
  | .function returnType parameters => returnType.raw :: parameters.map Id.raw

def text : Shape → String
  | .void => "Void"
  | .int width signed =>
    "Int \x7b width: " ++ wordText width ++ ", signed: "
      ++ (if signed then "true" else "false") ++ " \x7d"
  | .float width => "Float \x7b width: " ++ wordText width ++ " \x7d"
  | .vector element size =>
    "Vector \x7b element: " ++ element.text ++ ", size: " ++ wordText size ++ " \x7d"
  | .pointer storage pointee =>
    "Pointer \x7b storage: " ++ storage.name ++ ", pointee: " ++ pointee.text ++ " \x7d"
  | .function returnType parameters =>
    "Function \x7b return_type: " ++ returnType.text ++ ", parameters: ["
      ++ ", ".intercalate (parameters.map Id.text) ++ "] \x7d"

end Shape

/-- The global variable behind a static field. -/
structure GlobalVariable where
  id : Id
  field : FieldId
  storage : StorageClass
  valueType : Id
  deriving DecidableEq, Repr

/-- Which entity of a run is meant. -/
inductive Key where
  | type (id : TypeId)
  | shape (s : Shape)
  | constant (valueType : Id) (bits : Word)
  | variable (field : FieldId)
  | function (key : FunctionKey)
  deriving DecidableEq, Repr

namespace Key

@[reducible] def Value : Key → Type
  | .type _ => Id
  | .shape _ => Id
  | .constant .. => Id
  | .variable _ => GlobalVariable
  | .function _ => Function

/-- A key in messages: the kind of the entity and what tells it apart. -/
def label : Key → String
  | .type id => "type " ++ id.text
  | .shape s => "built-in type " ++ s.text
  | .constant valueType bits =>
    "constant ConstantKey \x7b value_type: " ++ valueType.text ++ ", bits: " ++ wordText bits
      ++ " \x7d"
  | .variable field => "variable " ++ field.text
  | .function key => "function " ++ key.text

end Key

end ShaderLowering
