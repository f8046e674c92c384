import ShaderLowering.Lowering.Session

/-!
# Requests of a session

What can be asked of a session, as a type: front-end types, built-in shapes, types by their
representation name, constants, global variables, functions, and plain ids.  `Session.ask` answers
one request and `Session.askAll` a list of them, so that the states a session can come to are those
that `askAll` leads to.
-/

namespace ShaderLowering

open Construction (Outcome)
open Spirv

/-- What can be asked of a session. -/
inductive Request where
  /-- The type that stands for a front-end type; no type is the void type. -/
  | type (id : Option TypeId)
  | shape (s : Shape)
  /-- The type that a representation name asks for, on behalf of a front-end type. -/
  | named (owner : TypeId) (name : String)
  | constant (valueType : Id) (bits : Word)
  | global (field : FieldId)
  | function (key : FunctionKey)
  /-- The function of a method with its declared parameter types. -/
  | method (id : MethodId)
  | freshId
  deriving DecidableEq, Repr

/-- What a session answers. -/
inductive Reply where
  | type (made : Id)
  /-- The head of a representation name is not known. -/
  | noType
  | constant (made : Id)
  | global (made : GlobalVariable)
  | function (made : Function)
  | freshId (taken : Id)
  deriving DecidableEq

namespace Reply

def type? : Reply → Option Id
  | .type made => some made
  | _ => none

end Reply

namespace Request

def task (a : Assembly) : Request → Construct Reply
  | .type id => Reply.type <$> Construct.returnType a id
  | .shape s => Reply.type <$> Construct.shape s
  | .named owner name => do
    let t ← Construct.typeDef a owner
    let resolved ← Construct.representation? a t name
    match resolved with
    | some made => pure (.type made)
    | none => pure .noType
  | .constant valueType bits => Reply.constant <$> Construct.constant valueType bits
  | .global field => Reply.global <$> Construct.global a field
  | .function key => Reply.function <$> Construct.function key
  | .method id => do
    let m ← BodyWriter.methodDef a id
    Reply.function <$> Construct.function (FunctionKey.ofMethod m)
  | .freshId => Reply.freshId <$> Construct.freshId

end Request

namespace Session

def ask (a : Assembly) (s : Session) (request : Request) :
    Outcome Key (Except Error Reply) × Session :=
  s.run a (request.task a)

def askAll (a : Assembly) (s : Session) (requests : List Request) : Session :=
  requests.foldl (fun s request => (s.ask a request).2) s

end Session

end ShaderLowering
