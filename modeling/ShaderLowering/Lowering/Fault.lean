import ShaderLowering.Construction.Task
import ShaderLowering.Lowering.Key

/-!
# Faults

What can be wrong with an assembly.  A `Fault` is a cause; `Fault.message` words it.  The two
failures that are not the fault of one entity (a construction that waits for itself, and one that
was attempted before) belong to the construction of entities in general, so an `Error` of a run is
a `Construction.Failure` over keys and faults.
-/

namespace ShaderLowering

open Spirv (Word)

/-- What is wrong with an assembly or with what is asked of it. -/
inductive Fault where
  | unresolvedMethod (id : UInt64)
  | unresolvedField (id : UInt64)
  | unresolvedType (id : UInt32)
  | unresolvedSlot (method : String) (slot : Il.Slot)
  | missingResultBinding (method : String)
  | malformedIl (method : String) (cause : Il.Truncated)
  | missingTargetName (typeName : String)
  | unsupportedBuiltInType (typeName representation : String)
  | unreachableEntryPoint (method : String)
  | unsupportedExecutionModel (model : ExecutionModel)
  | argumentCountMismatch (callee : String) (given expected : Nat)
  | unboundGenericParameter (parameter : String)
  | conflictingGenericBinding (method parameter : String)
  | nonStaticField (field : String)
  deriving DecidableEq, Repr

namespace Fault

def quoted (name : String) : String :=
  "\x60" ++ name ++ "\x60"

def message : Fault → String
  | .unresolvedMethod id => "method id " ++ toString id.toNat ++ " is not defined in the assembly"
  | .unresolvedField id => "field id " ++ toString id.toNat ++ " is not defined in the assembly"
  | .unresolvedType id => "type id " ++ toString id.toNat ++ " is not defined in the assembly"
  | .unresolvedSlot method slot => quoted method ++ " has no local slot " ++ toString slot.toNat
  | .missingResultBinding method => quoted method ++ " returns a value from an unbound slot"
  | .malformedIl method cause => "malformed IL in " ++ quoted method ++ ": " ++ cause.message
  | .missingTargetName typeName =>
    "type " ++ quoted typeName
      ++ " has a platform-dependent representation without a SPIR-V target name"
  | .unsupportedBuiltInType typeName representation =>
    "type " ++ quoted typeName ++ " uses unsupported built-in representation "
      ++ quoted representation
  | .unreachableEntryPoint method =>
    "entry point " ++ quoted method ++ " has no materialized function"
  | .unsupportedExecutionModel model => "execution model " ++ model.name ++ " is not supported"
  | .argumentCountMismatch callee given expected =>
    "call to " ++ quoted callee ++ " passes " ++ toString given ++ " arguments, expected "
      ++ toString expected
  | .unboundGenericParameter parameter =>
    "generic parameter " ++ quoted parameter ++ " is not bound to a concrete type"
  | .conflictingGenericBinding method parameter =>
    "generic parameter " ++ quoted parameter ++ " of " ++ quoted method
      ++ " is bound to two different types"
  | .nonStaticField field => "field " ++ quoted field ++ " is not static and has no global storage"

end Fault

/-- Why a run, or one request of it, fails. -/
abbrev Error := Construction.Failure Key Fault

def Error.message (e : Error) : String :=
  Construction.Failure.message Key.label Fault.message e

end ShaderLowering
