import ShaderLowering.Assembly.Basic
import ShaderLowering.Spirv.Instruction

/-!
# Enumerants

The numbered alternatives that stand in operands, each with the number that the format gives it.
-/

namespace ShaderLowering

namespace Spirv

/-- Where a variable lives. -/
inductive StorageClass where
  | input
  | uniform
  | output
  | «private»
  | function
  | storageBuffer
  deriving DecidableEq, Repr

namespace StorageClass

def code : StorageClass → Word
  | .input => 1
  | .uniform => 2
  | .output => 3
  | .private => 6
  | .function => 7
  | .storageBuffer => 12

def name : StorageClass → String
  | .input => "Input"
  | .uniform => "Uniform"
  | .output => "Output"
  | .private => "Private"
  | .function => "Function"
  | .storageBuffer => "StorageBuffer"

end StorageClass

def magic : Word := 0x07230203

def shaderCapability : Word := 1

/-- Pointers are logical, not physical. -/
def logicalAddressing : Word := 0

/-- The memory model of shading languages. -/
def glsl450 : Word := 1

/-- The execution mode that puts the origin of fragment coordinates in the upper left corner. -/
def originUpperLeft : Word := 7

/-- The decoration that gives an interface variable its location. -/
def locationDecoration : Word := 30

/-- A function without inlining or purity hints. -/
def noFunctionControl : Word := 0

end Spirv

/-- The storage class of the global variable behind a field. -/
def FieldStorage.storageClass : FieldStorage → Spirv.StorageClass
  | .private => .private
  | .input => .input
  | .output => .output
  | .uniform => .uniform
  | .storageBuffer => .storageBuffer

def ExecutionModel.code : ExecutionModel → Spirv.Word
  | .vertex => 0
  | .fragment => 4
  | .glCompute => 5

end ShaderLowering
