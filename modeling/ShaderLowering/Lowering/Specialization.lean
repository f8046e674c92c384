import ShaderLowering.Lowering.Fault

/-!
# Specialization

A method with placeholder parameters is lowered once per choice of concrete types.  Binding its
effective parameters to the types of a function key gives a substitution of its placeholders: each
is bound where it first occurs, and every later occurrence has to agree.  Types that are not bound
stay as they are.
-/

namespace ShaderLowering

/-- Bound placeholders with their concrete types, in the order in which they were bound. -/
structure Specialization where
  bindings : List (TypeId × TypeId)
  deriving DecidableEq, Repr

namespace Specialization

def empty : Specialization :=
  ⟨[]⟩

def lookup? (s : Specialization) (generic : TypeId) : Option TypeId :=
  s.bindings.lookup generic

/-- The type that a declared type becomes. -/
def apply (s : Specialization) (declared : TypeId) : TypeId :=
  (s.lookup? declared).getD declared

/-- Matches one declared parameter type with the concrete one. -/
def bindOne (a : Assembly) (m : MethodDef) (s : Specialization) (declared concrete : TypeId) :
    Except Fault Specialization :=
  match a.type? declared with
  | none => .error (.unresolvedType declared.raw)
  | some t =>
    if t.isGeneric then
      match s.lookup? declared with
      | none => .ok ⟨s.bindings ++ [(declared, concrete)]⟩
      | some bound =>
        if bound = concrete then .ok s else .error (.conflictingGenericBinding m.fullName t.name)
    else
      -- A type that is no placeholder binds nothing, whatever the concrete one is.
      .ok s

/-- Matches declared parameter types with concrete ones, in order. -/
def bindAll (a : Assembly) (m : MethodDef) (s : Specialization) :
    List (TypeId × TypeId) → Except Fault Specialization
  | [] => .ok s
  | (declared, concrete) :: rest =>
    match bindOne a m s declared concrete with
    | .ok s => bindAll a m s rest
    | .error fault => .error fault

/-- The substitution that makes a method's effective parameters the types of a key. -/
def bind (a : Assembly) (m : MethodDef) (key : FunctionKey) : Except Fault Specialization :=
  bindAll a m empty (m.effectiveParameters.zip key.parameters)

end Specialization

end ShaderLowering
