import ShaderLowering.Construction.Resolve
import ShaderLowering.Lowering.Body

/-!
# Sessions

A session is the state of a run on one thread: the slots of everything requested so far and what
has been written.  `Session.run` carries out a construction task on it; requests are resolved by
the recipes of the assembly.

`Assembly.depth` bounds how deep constructions nest, whatever is requested first.  Below the first
request there are only functions of defined methods with one defined type per effective parameter,
defined types, at most one global variable, and one shape or constant at the very end, and no two
of them are the same.
-/

namespace ShaderLowering

open Construction (Recipes State Outcome)

/-- How the entities of an assembly are constructed. -/
def recipes (a : Assembly) : Recipes lowering Emission where
  factory := fun request =>
    match request with
    | .type id => do
      let t ← Construct.typeDef a id
      Construct.buildType a t
    | .shape s => Construct.declare (.shape s)
    | .constant valueType bits => Construct.buildConstant valueType bits
    | .variable id => do
      let field ← Construct.fieldDef a id
      Construct.buildGlobal a id field
    | .function key => Construct.buildFunction a key
  act := Emission.act

namespace Assembly

/-- Number of function keys of a method with defined types only. -/
def keyCount (a : Assembly) (m : MethodDef) : Nat :=
  a.types.size.pow m.effectiveParameters.length

/-- A depth that nested constructions do not exceed. -/
def depth (a : Assembly) : Nat :=
  a.methods.toList.foldr (fun m total => a.keyCount m + total) (a.types.size + 4)

end Assembly

/-- The state of a run on one thread. -/
abbrev Session := State lowering Emission

namespace Session

def start : Session :=
  State.start Emission.empty

def run {α : Type} (a : Assembly) (task : Construct α) (s : Session) :
    Outcome Key (Except Error α) × Session :=
  task.execute (recipes a) a.depth s

/-- The bound of the ids issued so far. -/
def bound (s : Session) : Spirv.Word :=
  s.shared.ids.bound

def count (s : Session) (condition : Key → Bool) : Nat :=
  s.slots.keys.countP condition

end Session

end ShaderLowering
