import ShaderLowering.Assembly.Basic
import ShaderLowering.Spirv.Id

/-!
# Lowered functions

One method becomes one function per choice of concrete types for its effective parameters; that
pair is its `FunctionKey`.  A lowered `Function` holds its words and, in call order, the functions
that it calls.  A callee is complete before the call to it is written, so the calls of a function
form a finite tree and a function can hold its callees as values.
-/

namespace ShaderLowering

/-- A method and the concrete types of its effective parameters. -/
structure FunctionKey where
  method : MethodId
  parameters : List TypeId
  deriving DecidableEq, Repr

namespace FunctionKey

/-- The key of a method with its declared parameter types. -/
def ofMethod (m : MethodDef) : FunctionKey :=
  ⟨m.id, m.effectiveParameters⟩

def text (key : FunctionKey) : String :=
  "FunctionKey \x7b method: " ++ key.method.text ++ ", parameters: ["
    ++ ", ".intercalate (key.parameters.map EntityId.text) ++ "] \x7d"

end FunctionKey

/-- A lowered function: the words from its first to its last instruction, and its callees. -/
structure Function where
  id : Spirv.Id
  key : FunctionKey
  returnType : Spirv.Id
  body : List Spirv.Word
  callees : List Function

namespace Function

mutual

/-- Whether two functions, with all that they call, are the same. -/
def decEq : (f g : Function) → Decidable (f = g)
  | ⟨id, key, returnType, body, callees⟩, ⟨id', key', returnType', body', callees'⟩ =>
    have := decEqList callees callees'
    decidable_of_iff (id = id' ∧ key = key' ∧ returnType = returnType' ∧ body = body' ∧
      callees = callees') (by rw [mk.injEq])

def decEqList : (fs gs : List Function) → Decidable (fs = gs)
  | [], [] => .isTrue rfl
  | [], _ :: _ => .isFalse nofun
  | _ :: _, [] => .isFalse nofun
  | f :: fs, g :: gs =>
    have := decEq f g
    have := decEqList fs gs
    decidable_of_iff (f = g ∧ fs = gs) List.cons_eq_cons.symm

end

instance : DecidableEq Function := decEq

end Function

end ShaderLowering
