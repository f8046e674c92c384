import ShaderLowering.Proofs.Layout.Postorder
import ShaderLowering.Proofs.Layout.Streams
import ShaderLowering.Proofs.Lowering.Forms

/-!
# Lines

A line is `Regular` if its names stand exactly where the layout takes operands for ids.  Then the ids of
its instruction are those of its names (`Line.Regular.ids`), and renaming the ids is giving other ids
to the names (`Line.Regular.mapIds_under`).

The lines of a function have one of ten forms (`Line.InBody`), all of which are regular.  Only calls
may have more than four operands, so a function fits the format as soon as the calls in it do
(`Specialized.fits_of_mem_lines`).
-/

namespace ShaderLowering

open Spirv

/-- The word that a name has for an id. -/
abbrev wordOf (ν : List Name) (n : Name) : Word :=
  (ident ν n).raw

namespace Line

variable {ν : List Name} {line : Line}

@[simp] theorem op?_under (ν : List Name) (line : Line) : (line.under ν).op? = some line.op :=
  Op.ofCode?_code line.op

/-! ## Names in the place of ids -/

/-- The operand at a position is a name. -/
def hasName (line : Line) (position : Nat) : Bool :=
  ((line.operands[position]?).bind Operand.name?).isSome

/-- A line has names where its opcode has ids. -/
def Regular (line : Line) : Prop :=
  ∀ ν, (line.under ν).idPositions = (List.range line.operands.length).filter line.hasName

/-- The ids of a regular line are those of its names. -/
theorem Regular.ids (h : line.Regular) (ν : List Name) :
    (line.under ν).ids = line.names.map (wordOf ν) := by
  have hget : ∀ p, (if line.hasName p = true then (line.under ν).operands[p]? else none) =
      (line.operands[p]?).bind fun o => o.name?.map (wordOf ν) := by
    intro p
    simp only [under, List.getElem?_map, hasName]
    cases line.operands[p]? with
    | none => rfl
    | some o => cases o <;> rfl
  rw [Instruction.ids, h ν, List.filterMap_filter, names, List.map_filterMap]
  simp only [hget]
  rw [← List.filterMap_filterMap, Layout.filterMap_getElem?_range]

/-- To rename the ids of a regular line is to give its names other ids. -/
theorem Regular.mapIds_under (h : line.Regular) {ν ν' : List Name} {r : Word → Word}
    (hr : ∀ n ∈ line.names, r (wordOf ν n) = wordOf ν' n) :
    (line.under ν).mapIds r = line.under ν' := by
  have hoperands : ((line.under ν).mapIds r).operands = (line.under ν').operands := by
    apply List.ext_getElem?
    intro p
    rw [Instruction.getElem?_operands_mapIds, h ν]
    simp only [under, List.getElem?_map, List.mem_filter, List.mem_range, hasName]
    cases ho : line.operands[p]? with
    | none => rfl
    | some o =>
      cases o with
      | word w => simp [Operand.under, Operand.name?]
      | name n =>
        have hin : p < line.operands.length := (List.getElem?_eq_some_iff.mp ho).1
        have hn : n ∈ line.names := List.mem_filterMap.mpr ⟨_, List.mem_of_getElem? ho, rfl⟩
        simp [Operand.under, Operand.name?, hin, hr n hn]
  exact congrArg (Instruction.mk line.op.code) hoperands

/-! ## The lines of functions -/

/-- The forms of lines in functions. -/
inductive InBody : Line → Prop
  | function (type function signature : Name) (control : Word) :
      InBody ⟨.function, [.name type, .name function, .word control, .name signature]⟩
  | parameter (type result : Name) : InBody ⟨.functionParameter, [.name type, .name result]⟩
  | label (result : Name) : InBody ⟨.label, [.name result]⟩
  | variable (type result : Name) (storage : Word) :
      InBody ⟨.variable, [.name type, .name result, .word storage]⟩
  | load (type result pointer : Name) :
      InBody ⟨.load, [.name type, .name result, .name pointer]⟩
  | store (pointer value : Name) : InBody ⟨.store, [.name pointer, .name value]⟩
  | call (type result callee : Name) (arguments : List Name) :
      InBody ⟨.functionCall, .name type :: .name result :: .name callee :: arguments.map .name⟩
  | ret : InBody ⟨.ret, []⟩
  | returnValue (value : Name) : InBody ⟨.returnValue, [.name value]⟩
  | functionEnd : InBody ⟨.functionEnd, []⟩

/-- A line whose operands are all names is regular if its opcode has ids only. -/
theorem regular_of_all {op : Op} (operands : List Name)
    (hop : ∀ i : Instruction, i.op? = some op → i.nominalIdPositions = List.range i.operands.length) :
    Regular ⟨op, operands.map .name⟩ := by
  intro ν
  have hnames : ∀ p ∈ List.range operands.length,
      hasName ⟨op, operands.map .name⟩ p = true := fun p hp => by
    simp [hasName, List.mem_range.mp hp, Operand.name?]
  rw [Instruction.idPositions, hop _ (op?_under ν _)]
  simp only [under, List.length_map]
  rw [List.filter_eq_self.mpr hnames, List.filter_eq_self.mpr (by simp)]

theorem InBody.regular (h : line.InBody) : line.Regular := by
  cases h with
  | call type result callee arguments =>
    exact regular_of_all (type :: result :: callee :: arguments) fun i hi => by
      simp only [Instruction.nominalIdPositions, hi]
  | _ =>
    intro ν
    simp [Instruction.idPositions, Instruction.nominalIdPositions, under, Instruction.op?,
      List.filter, hasName, Operand.name?, List.range_succ]

/-- Only calls may have more than four operands. -/
theorem InBody.length_le (h : line.InBody) (hop : line.op ≠ .functionCall) :
    line.operands.length ≤ 4 := by
  cases h with
  | call => exact absurd rfl hop
  | _ => simp

end Line

namespace Specialized

variable {a : Assembly} {p : Specialized} {op : Il.Operation} {number : Nat} {line : Line}

/-- The lines of code are lines of its operations, each of which has all its lines there. -/
theorem exists_of_mem_codeLines {code : List Il.Instruction}
    (hline : line ∈ p.codeLines a number code) :
    ∃ i ∈ code, ∃ op, i.decode = .ok op ∧ ∃ number', line ∈ p.operationLines a number' op ∧
      p.operationLines a number' op ⊆ p.codeLines a number code := by
  induction code generalizing number with
  | nil => cases hline
  | cons i rest ih =>
    rw [codeLines] at hline ⊢
    split at hline
    · next op hop =>
      rcases List.mem_append.mp hline with hline | hline
      · exact ⟨i, List.mem_cons_self, op, hop, number, hline, List.subset_append_left _ _⟩
      · obtain ⟨i', hi', op', hop', number', hin, hall⟩ := ih hline
        exact ⟨i', List.mem_cons_of_mem i hi', op', hop', number', hin,
          List.subset_append_of_subset_right _ hall⟩
    · obtain ⟨i', hi', hlater⟩ := ih hline
      exact ⟨i', List.mem_cons_of_mem i hi', hlater⟩

/-- What holds of every line that a function may be put together from holds of all its lines. -/
theorem forall_mem_lines {P : Line → Prop} (hfunction : P (p.functionLine a))
    (hparameter : ∀ id position, P (p.parameterLine a id position)) (hlabel : P p.labelLine)
    (hslot : ∀ id position, P (p.slotLine a id position))
    (harrival : ∀ position < min p.slotTypes.length p.key.parameters.length,
      P (p.arrivalLine position))
    (hoperation : ∀ op, p.Performs op → ∀ number, p.operationLines a number op ⊆ p.lines a →
      ∀ line ∈ p.operationLines a number op, P line)
    (hend : P ⟨.functionEnd, []⟩) : ∀ line ∈ p.lines a, P line := by
  intro line hline
  have hcode : p.codeLines a p.reserved p.method.code.instructions ⊆ p.lines a := fun line hline => by
    simp [lines, hline]
  simp only [lines, headLines, parameterLines, slotLines, arrivalLines, List.mem_append,
    List.mem_cons, List.mem_map, List.not_mem_nil, or_false] at hline
  -- An operation is followed in the code by others, so its lines are among those of the function.
  rcases hline with (((((rfl | ⟨_, -, rfl⟩) | rfl) | ⟨_, -, rfl⟩) | ⟨_, hin, rfl⟩) | hline) | rfl
  · exact hfunction
  · exact hparameter _ _
  · exact hlabel
  · exact hslot _ _
  · exact harrival _ (List.mem_range.mp hin)
  · obtain ⟨i, hi, op, hop, number, hline, hall⟩ := exists_of_mem_codeLines hline
    exact hoperation op ⟨i, hi, hop⟩ number (List.Subset.trans hall hcode) line hline
  · exact hend

theorem mem_argumentLines {slots : List Il.Slot} (hline : line ∈ p.argumentLines a slots number) :
    ∃ slot n, line = p.loadLine a slot n := by
  obtain ⟨⟨slot, n⟩, -, rfl⟩ := List.mem_map.mp hline
  exact ⟨slot, n, rfl⟩

theorem inBody_of_mem_operationLines (hline : line ∈ p.operationLines a number op) :
    line.InBody := by
  cases op with
  | call result wire slots =>
    rw [operationLines] at hline
    split at hline
    · next callee _ =>
      simp only [callLines, List.mem_append, List.mem_cons, List.mem_map] at hline
      rcases hline with hline | rfl | ⟨slot, -, rfl⟩
      · obtain ⟨slot, n, rfl⟩ := mem_argumentLines hline
        exact .load _ _ _
      · have hcall := Line.InBody.call (.value (a.returnValue callee))
          (p.own (number + slots.length)) (.own callee 0)
          ((List.range' number slots.length).map p.own)
        rw [List.map_map] at hcall
        exact hcall
      · exact .store _ _
    · cases hline
  | returnValue value =>
    cases value with
    | none => cases hline
    | some slot =>
      simp only [operationLines, List.mem_cons, List.not_mem_nil, or_false] at hline
      rcases hline with rfl | rfl
      · exact .load _ _ _
      · exact .returnValue _
  | ret =>
    obtain rfl := List.mem_singleton.mp hline
    exact .ret
  | load _ _ | loadField _ _ | storeField _ _ =>
    simp only [operationLines, List.mem_cons, List.not_mem_nil, or_false] at hline
    rcases hline with rfl | rfl
    · exact .load _ _ _
    · exact .store _ _
  | loadUInt32 _ _ | loadFloat32 _ _ =>
    obtain rfl := List.mem_singleton.mp hline
    exact .store _ _

/-- All lines of a function have one of the forms. -/
theorem inBody_of_mem_lines : ∀ line ∈ p.lines a, line.InBody :=
  forall_mem_lines (.function _ _ _ _) (fun _ _ => .parameter _ _) (.label _)
    (fun _ _ => .variable _ _ _) (fun _ _ => .store _ _)
    (fun _ _ _ _ _ hline => inBody_of_mem_operationLines hline) .functionEnd

theorem mem_calledBy {i : Il.Instruction} {code : List Il.Instruction} (hi : i ∈ code)
    (hdecode : i.decode = .ok op) {key : FunctionKey} (hkey : key ∈ p.called a op) :
    key ∈ p.calledBy a code := by
  induction code with
  | nil => cases hi
  | cons i' rest ih =>
    rcases List.mem_cons.mp hi with rfl | hi
    · rw [calledBy, hdecode]
      exact List.mem_append_left _ hkey
    · have hrest := ih hi
      rw [calledBy]
      split
      · exact List.mem_append_right _ hrest
      · exact hrest

/-- The variable of a field that an operation accesses is on one of its lines. -/
theorem global_mem_operationLines {wire : UInt64} {field : FieldId} (hwire : op.field? = some wire)
    (hfield : EntityId.ofWire? wire = some field) :
    ∃ line ∈ p.operationLines a number op, Name.global field ∈ line.names := by
  have hname : p.globalName wire = .global field := by rw [globalName, hfield]
  cases op with
  | loadField destination wire' =>
    obtain rfl := Option.some.inj hwire
    refine ⟨_, List.mem_cons_self, ?_⟩
    simp [Line.names, Operand.name?, hname]
  | storeField wire' source =>
    obtain rfl := Option.some.inj hwire
    refine ⟨_, List.mem_cons_of_mem _ List.mem_cons_self, ?_⟩
    simp [Line.names, Operand.name?, hname]
  | _ => cases hwire

/-! ## The length of lines -/

/-- A call has three operands beside the arguments. -/
theorem exists_of_mem_operationLines_call (hline : line ∈ p.operationLines a number op)
    (hcall : line.op = .functionCall) :
    ∃ callee ∈ p.called a op, line.operands.length = callee.parameters.length + 3 := by
  cases op with
  | call result wire slots =>
    rw [operationLines] at hline
    split at hline
    · next callee hcallee =>
      simp only [callLines, List.mem_append, List.mem_cons, List.mem_map] at hline
      rcases hline with hline | rfl | ⟨slot, -, rfl⟩
      · obtain ⟨slot, n, rfl⟩ := mem_argumentLines hline
        cases hcall
      · obtain ⟨target, -, -, hslots, hparameters⟩ := target?_of_calleeKey? hcallee
        exact ⟨callee, by simp [called, hcallee], by simp [callLine, hslots, hparameters]⟩
      · cases hcall
    · cases hline
  | returnValue value =>
    cases value with
    | none => cases hline
    | some slot =>
      simp only [operationLines, List.mem_cons, List.not_mem_nil, or_false] at hline
      rcases hline with rfl | rfl <;> cases hcall
  | ret | loadUInt32 _ _ | loadFloat32 _ _ =>
    obtain rfl := List.mem_singleton.mp hline
    cases hcall
  | load _ _ | loadField _ _ | storeField _ _ =>
    simp only [operationLines, List.mem_cons, List.not_mem_nil, or_false] at hline
    rcases hline with rfl | rfl <;> cases hcall

/-- If the calls in a function fit the format, all its lines do. -/
theorem fits_of_mem_lines (hcalls : ∀ callee ∈ p.calledBy a p.method.code.instructions,
    callee.parameters.length + 4 < UInt16.size) (ν : List Name) :
    ∀ line ∈ p.lines a, (line.under ν).Fits := by
  intro line hline
  have hlength : (line.under ν).operands.length = line.operands.length := List.length_map _
  rw [Instruction.Fits, hlength]
  -- Only a call can have many operands.
  by_cases hcall : line.op = .functionCall
  · have hform : line.op = .functionCall → ∃ callee ∈ p.calledBy a p.method.code.instructions,
        line.operands.length = callee.parameters.length + 3 := by
      refine forall_mem_lines (P := fun line => line.op = .functionCall → ∃ callee ∈
        p.calledBy a p.method.code.instructions, line.operands.length = callee.parameters.length + 3)
        (fun hop => by cases hop) (fun _ _ hop => by cases hop) (fun hop => by cases hop)
        (fun _ _ hop => by cases hop) (fun _ _ hop => by cases hop) ?_ (fun hop => by cases hop) line
        hline
      rintro op ⟨i, hi, hop⟩ number - line hline hcall
      obtain ⟨callee, hcallee, heq⟩ := exists_of_mem_operationLines_call hline hcall
      exact ⟨callee, mem_calledBy hi hop hcallee, heq⟩
    obtain ⟨callee, hcallee, heq⟩ := hform hcall
    rw [heq]
    exact hcalls callee hcallee
  · have hshort := (inBody_of_mem_lines line hline).length_le hcall
    have hsize : UInt16.size = 65536 := rfl
    omega

end Specialized

end ShaderLowering
