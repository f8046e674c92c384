import ShaderLowering.Lowering.Fault

/-!
# What constructions write

Constructions share the ids of the run, the declarations and annotations written so far, and the
list of global variables.  They change them by four `Action`s, each of which takes effect at once;
in particular a declaration gets its id in the same action that writes it, so declarations stand in
the order of their ids.

`Construct` is the type of construction tasks over this vocabulary.
-/

namespace ShaderLowering

open Spirv

/-- An instruction of the declarations, without the id that it will get. -/
inductive Declaration where
  | struct (members : List Id)
  | shape (s : Shape)
  | constant (valueType : Id) (bits : Word)
  | variable (pointerType : Id) (storage : StorageClass)
  deriving DecidableEq, Repr

/-- The instruction that gives a variable a location. -/
def decoration (target : Id) (location : Word) : Instruction :=
  ⟨Op.decorate.code, [target.raw, locationDecoration, location]⟩

namespace Declaration

/-- The instruction that gives a meaning to an id. -/
def instruction (id : Id) : Declaration → Instruction
  | .struct members => ⟨Op.typeStruct.code, id.raw :: members.map Id.raw⟩
  | .shape s => ⟨s.op.code, id.raw :: s.operands⟩
  | .constant valueType bits => ⟨Op.constant.code, [valueType.raw, id.raw, bits]⟩
  | .variable pointerType storage =>
    ⟨Op.variable.code, [pointerType.raw, id.raw, storage.code]⟩

end Declaration

/-- What a construction does to the state that it shares with others. -/
inductive Action where
  | freshId
  | declare (declaration : Declaration)
  | decorate (target : Id) (location : Word)
  | expose (global : GlobalVariable)
  deriving DecidableEq, Repr

@[reducible] def Action.Answer : Action → Type
  | .freshId => Id
  | .declare _ => Id
  | .decorate .. => Unit
  | .expose _ => Unit

/-- Everything written so far in a run: declarations and annotations in the order in which they were
written, and the global variables in the order in which they were made. -/
structure Emission where
  ids : IdSource
  declared : List Instruction
  annotated : List Instruction
  globals : List GlobalVariable
  deriving Repr

namespace Emission

def empty : Emission :=
  ⟨.fresh, [], [], []⟩

def declarations (e : Emission) : List Word :=
  e.declared.flatMap Instruction.encode

def annotations (e : Emission) : List Word :=
  e.annotated.flatMap Instruction.encode

/-- The effect of an action. -/
def act : (action : Action) → Emission → action.Answer × Emission
  | .freshId, e =>
    let (id, ids) := e.ids.next
    (id, { e with ids })
  | .declare declaration, e =>
    let (id, ids) := e.ids.next
    (id, { e with ids, declared := e.declared ++ [declaration.instruction id] })
  | .decorate target location, e =>
    ((), { e with annotated := e.annotated ++ [decoration target location] })
  | .expose global, e => ((), { e with globals := e.globals ++ [global] })

end Emission

/-- The vocabulary of lowering: a key is its own request. -/
@[reducible] def lowering : Construction.Interface where
  Key := Key
  Value := Key.Value
  Request := Key
  key := fun key => key
  Action := Action
  Answer := Action.Answer
  Fault := Fault

/-- A construction task of a lowering run. -/
abbrev Construct := Construction.Task lowering

namespace Construct

open Construction (Task)

def freshId : Construct Id :=
  Task.perform (I := lowering) .freshId

def declare (declaration : Declaration) : Construct Id :=
  Task.perform (I := lowering) (.declare declaration)

def decorate (target : Id) (location : Word) : Construct Unit :=
  Task.perform (I := lowering) (.decorate target location)

/-- Adds a variable to the interface of the module. -/
def expose (global : GlobalVariable) : Construct Unit :=
  Task.perform (I := lowering) (.expose global)

end Construct

end ShaderLowering
