/-!
# Attributes

Types, fields and methods carry lists of attributes.  Four questions are asked of a list: whether
it is marked static, which storage it names, which location, and which platform representation.
Where an attribute is repeated the first one answers, so each question is a single search.
-/

namespace ShaderLowering

/-- Where the global variable behind a static field lives. -/
inductive FieldStorage where
  | «private»
  | input
  | output
  | uniform
  | storageBuffer
  deriving DecidableEq, Repr

/-- A remark on a type, a field or a method. -/
inductive Attribute where
  /-- The type is laid out by the platform; the SPIR-V name of its shape may be missing. -/
  | representation (spirvName : Option String)
  /-- A method without a receiver, or a field backed by a global variable. -/
  | static
  | storage (place : FieldStorage)
  | location (number : UInt32)
  deriving DecidableEq, Repr

namespace Attribute

def hasStatic (attributes : List Attribute) : Bool :=
  attributes.any fun
    | .static => true
    | _ => false

/-- The storage that a list names; private when it names none. -/
def fieldStorage (attributes : List Attribute) : FieldStorage :=
  (attributes.findSome? fun
    | .storage place => some place
    | _ => none).getD .private

/-- The location that a list names. -/
def location? (attributes : List Attribute) : Option UInt32 :=
  attributes.findSome? fun
    | .location number => some number
    | _ => none

/-- The platform representation of a list: `some none` is one without a SPIR-V name. -/
def representation? (attributes : List Attribute) : Option (Option String) :=
  attributes.findSome? fun
    | .representation spirvName => some spirvName
    | _ => none

end Attribute

end ShaderLowering
