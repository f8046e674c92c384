/-!
# Opcodes

The opcodes that modules are made of, with their numbers and their names.  Four of them (`nop`,
`typeBool`, `typeMatrix`, `constantTrue`) have a name here but are never written.

A stream may hold other opcodes, and which of these are known at all is up to the tables of the format.
An `OpTable` leaves that open; it is only asked to know the opcodes that have a name here.
-/

namespace ShaderLowering.Spirv

/-- An opcode with a name. -/
inductive Op where
  | nop
  | memoryModel
  | entryPoint
  | executionMode
  | capability
  | typeVoid
  | typeBool
  | typeInt
  | typeFloat
  | typeVector
  | typeMatrix
  | typeStruct
  | typePointer
  | typeFunction
  | constantTrue
  | constant
  | function
  | functionParameter
  | functionEnd
  | functionCall
  | variable
  | load
  | store
  | decorate
  | label
  | ret
  | returnValue
  deriving DecidableEq, Repr

namespace Op

/-- Every one of them once, in the order of their numbers. -/
def all : List Op :=
  [.nop, .memoryModel, .entryPoint, .executionMode, .capability, .typeVoid, .typeBool, .typeInt,
    .typeFloat, .typeVector, .typeMatrix, .typeStruct, .typePointer, .typeFunction, .constantTrue,
    .constant, .function, .functionParameter, .functionEnd, .functionCall, .variable, .load,
    .store, .decorate, .label, .ret, .returnValue]

def code : Op → UInt16
  | .nop => 0
  | .memoryModel => 14
  | .entryPoint => 15
  | .executionMode => 16
  | .capability => 17
  | .typeVoid => 19
  | .typeBool => 20
  | .typeInt => 21
  | .typeFloat => 22
  | .typeVector => 23
  | .typeMatrix => 24
  | .typeStruct => 30
  | .typePointer => 32
  | .typeFunction => 33
  | .constantTrue => 41
  | .constant => 43
  | .function => 54
  | .functionParameter => 55
  | .functionEnd => 56
  | .functionCall => 57
  | .variable => 59
  | .load => 61
  | .store => 62
  | .decorate => 71
  | .label => 248
  | .ret => 253
  | .returnValue => 254

def name : Op → String
  | .nop => "Nop"
  | .memoryModel => "MemoryModel"
  | .entryPoint => "EntryPoint"
  | .executionMode => "ExecutionMode"
  | .capability => "Capability"
  | .typeVoid => "TypeVoid"
  | .typeBool => "TypeBool"
  | .typeInt => "TypeInt"
  | .typeFloat => "TypeFloat"
  | .typeVector => "TypeVector"
  | .typeMatrix => "TypeMatrix"
  | .typeStruct => "TypeStruct"
  | .typePointer => "TypePointer"
  | .typeFunction => "TypeFunction"
  | .constantTrue => "ConstantTrue"
  | .constant => "Constant"
  | .function => "Function"
  | .functionParameter => "FunctionParameter"
  | .functionEnd => "FunctionEnd"
  | .functionCall => "FunctionCall"
  | .variable => "Variable"
  | .load => "Load"
  | .store => "Store"
  | .decorate => "Decorate"
  | .label => "Label"
  | .ret => "Return"
  | .returnValue => "ReturnValue"

def ofCode? (code : UInt16) : Option Op :=
  all.find? fun op => op.code == code

def ofName? (name : String) : Option Op :=
  all.find? fun op => op.name == name

@[simp] theorem ofCode?_code (op : Op) : ofCode? op.code = some op := by
  cases op <;> rfl

theorem ofCode?_eq_some_iff {code : UInt16} {op : Op} :
    ofCode? code = some op ↔ code = op.code := by
  constructor
  · intro h
    unfold ofCode? at h
    have found := List.find?_some h
    exact (eq_of_beq found).symm
  · rintro rfl
    exact ofCode?_code op

end Op

/-- Which numbers are known as opcodes, those that have a name among them. -/
structure OpTable where
  knows : UInt16 → Bool
  knows_code : ∀ op : Op, knows op.code = true

attribute [simp] OpTable.knows_code

/-- The table in which no other number is known. -/
def OpTable.named : OpTable where
  knows code := (Op.ofCode? code).isSome
  knows_code op := by rw [Op.ofCode?_code, Option.isSome_some]

end ShaderLowering.Spirv
