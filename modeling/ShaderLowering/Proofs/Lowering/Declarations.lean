import ShaderLowering.Proofs.Lowering.Ledger
import ShaderLowering.Proofs.Lowering.Linking

/-!
# Declarations as lines

What declares a name is a line too (`Name.form?`): its result is the name, and it refers to the parts of
the name.  So the declarations of a run are lines, in the order in which names got ids
(`Account.declared_eq`), one for each name that is not an id inside a function.
-/

namespace ShaderLowering

open Spirv

namespace Name

/-- The line that declares a name; none for an id inside a function. -/
def form? (a : Assembly) (n : Name) : Option Line :=
  match n with
  | .value .void => some ⟨.typeVoid, [.name n]⟩
  | .value (.int width signed) =>
    some ⟨.typeInt, [.name n, .word width, .word (if signed then 1 else 0)]⟩
  | .value (.float width) => some ⟨.typeFloat, [.name n, .word width]⟩
  | .value (.vector element size) =>
    some ⟨.typeVector, [.name n, .name (.value element), .word size]⟩
  | .value (.struct id) => some ⟨.typeStruct, (n :: (a.members id).map .value).map .name⟩
  | .pointer storage pointee =>
    some ⟨.typePointer, [.name n, .word storage.code, .name (.value pointee)]⟩
  | .signature returnType parameters =>
    some ⟨.typeFunction, (n :: .value returnType :: parameters.map .value).map .name⟩
  | .constant type bits => some ⟨.constant, [.name (.value type), .name n, .word bits]⟩
  | .global field => some ⟨.variable, [.name (.pointer (a.storage field) (a.fieldType field)),
      .name n, .word (a.storage field).code]⟩
  | .own _ _ => none

variable {a : Assembly} {ν : List Name} {n m : Name} {line : Line}

/-- The instruction that declares a name is its line. -/
theorem line?_eq (a : Assembly) (ν : List Name) (n : Name) :
    n.line? a ν = (n.form? a).map (Line.under ν) := by
  cases n with
  | value type =>
    cases type <;> simp [line?, declaration?, key, form?, Declaration.instruction, Line.under,
      Operand.under, Shape.op, Shape.operands, Function.comp_def]
  | _ => simp [line?, declaration?, key, form?, Declaration.instruction, Line.under, Operand.under,
      Shape.op, Shape.operands, Function.comp_def]

theorem form?_eq_none : n.form? a = none ↔ ∃ key number, n = .own key number := by
  cases n with
  | value type => cases type <;> simp [form?]
  | _ => simp [form?]

/-- The line that declares a name has names where its opcode has ids. -/
theorem regular_of_form? (h : n.form? a = some line) : line.Regular := by
  cases n with
  | value type =>
    cases type with
    | struct id =>
      obtain rfl := Option.some.inj h
      exact Line.regular_of_all _ fun i hi => by simp only [Instruction.nominalIdPositions, hi]
    | _ =>
      obtain rfl := Option.some.inj h
      intro ν
      simp [Instruction.idPositions, Instruction.nominalIdPositions, Line.under, Instruction.op?,
        List.filter, Line.hasName, Operand.name?, List.range_succ]
  | signature returnType parameters =>
    obtain rfl := Option.some.inj h
    exact Line.regular_of_all _ fun i hi => by simp only [Instruction.nominalIdPositions, hi]
  | own key number => cases h
  | _ =>
    obtain rfl := Option.some.inj h
    intro ν
    simp [Instruction.idPositions, Instruction.nominalIdPositions, Line.under, Instruction.op?,
      List.filter, Line.hasName, Operand.name?, List.range_succ]

/-- The line that declares a name mentions the name and its parts. -/
theorem mem_names_of_form? (h : n.form? a = some line) :
    m ∈ line.names ↔ m = n ∨ m ∈ n.parts a := by
  cases n with
  | value type =>
    cases type <;> (obtain rfl := Option.some.inj h) <;>
      simp [Line.names, Operand.name?, parts, List.filterMap_map, Function.comp_def]
  | pointer storage pointee =>
    obtain rfl := Option.some.inj h
    simp only [Line.names, List.filterMap_cons, Operand.name?, List.filterMap_nil, List.mem_cons,
      List.not_mem_nil, or_false, parts]
  | own key number => cases h
  | _ =>
    obtain rfl := Option.some.inj h
    simp [Line.names, Operand.name?, parts, List.filterMap_map, Function.comp_def, or_comm]

/-- A name is declared as a type, a constant or a variable. -/
theorem op_of_form? (h : n.form? a = some line) :
    line.op ∈ [Op.typeVoid, .typeInt, .typeFloat, .typeVector, .typeStruct, .typePointer, .typeFunction,
      .constant, .variable] := by
  cases n with
  | value type => cases type <;> (obtain rfl := Option.some.inj h) <;> simp
  | own key number => cases h
  | _ =>
    obtain rfl := Option.some.inj h
    simp

/-- The line that declares a name has it for its result. -/
theorem resultId?_of_form? (h : n.form? a = some line) (ν : List Name) :
    (line.under ν).resultId? .named = some (wordOf ν n) := by
  cases n with
  | value type =>
    cases type <;> (obtain rfl := Option.some.inj h) <;>
      simp [Instruction.resultId?, Line.under, Operand.under, Instruction.op?]
  | own key number => cases h
  | _ =>
    obtain rfl := Option.some.inj h
    simp [Instruction.resultId?, Line.under, Operand.under, Instruction.op?]

end Name

/-- The declarations of a run are lines, in the order in which names got ids. -/
theorem Account.declared_eq {a : Assembly} {h : History} {e : Emission} (hacc : Account a h e) :
    e.declared = ((names h).filterMap (Name.form? a)).map (Line.under (names h)) := by
  rw [hacc.declared, List.map_filterMap]
  exact List.filterMap_congr fun n _ => Name.line?_eq a (names h) n

end ShaderLowering
