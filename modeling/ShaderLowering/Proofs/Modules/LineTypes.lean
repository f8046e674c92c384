import ShaderLowering.Proofs.Lowering.Keys
import ShaderLowering.Proofs.Modules.Scopes

/-!
# Types of lines

Code is well typed if its operations agree on types once the placeholders are substituted
(`Specialized.WellTyped`).  A line is well typed if the types of its operands, as their own lines declare
them, are those that its opcode asks for (`Specialized.Typed`).  The lines of well-typed code are well
typed (`Specialized.typed_of_mem_lines`).

The types of incoming parameters come from the key of the function, and those of the slots that they are
stored into from its substitution.  For keys that are met these are the same, whence the only hypothesis
beside that on the code.
-/

namespace ShaderLowering

open Spirv

namespace Line

/-- The type of the value that a line gives a meaning to: it stands before the result. -/
def type? (line : Line) : Option Name :=
  if line.op.resultPosition? = some 1 then (line.operands[0]?).bind Operand.name? else none

theorem mem_names_of_type? {line : Line} {type : Name} (htype : line.type? = some type) :
    type ∈ line.names := by
  rw [type?] at htype
  split at htype
  · obtain ⟨o, ho, hname⟩ := Option.bind_eq_some_iff.mp htype
    exact List.mem_filterMap.mpr ⟨o, List.mem_of_getElem? ho, hname⟩
  · cases htype

end Line

namespace Specialized

variable (a : Assembly) (p : Specialized)

/-- What an operation moves has the same type on either side, once the placeholders are substituted. -/
def Agrees : Il.Operation → Prop
  | .load destination source => p.slotValue a destination = p.slotValue a source
  | .loadField destination wire => p.slotValue a destination = globalType a wire
  | .storeField wire source => globalType a wire = p.slotValue a source
  | .call result wire arguments => ∀ callee, p.calleeKey? a wire arguments = some callee →
      arguments.map (p.slotValue a) = callee.parameters.map a.valueType ∧
        ∀ slot ∈ result, p.slotValue a slot = a.returnValue callee
  | .returnValue value => ∀ slot ∈ value, p.slotValue a slot = p.returnValue a
  | .ret | .loadUInt32 _ _ | .loadFloat32 _ _ => True

/-- The code of a function is well typed. -/
def WellTyped : Prop :=
  ∀ op, p.Performs op → p.Agrees a op

/-- A line gives a name its meaning: it declares the name for the module, or it is a line of the
function. -/
inductive Means (n : Name) (line : Line) : Prop
  | declared (hform : n.form? a = some line) : Means n line
  | own (hline : line ∈ p.lines a) (hdefines : line.defines? = some n) : Means n line

/-- The line that gives a name its meaning declares it with a type. -/
def HasType (n type : Name) : Prop :=
  ∃ line, p.Means a n line ∧ line.type? = some type

/-- A line has operands of the types that its opcode asks for. -/
inductive Typed : Line → Prop
  | load {storage : StorageClass} {type : ValueType} {pointer result : Name}
      (hpointer : p.HasType a pointer (.pointer storage type)) :
      Typed ⟨.load, [.name (.value type), .name result, .name pointer]⟩
  | store {storage : StorageClass} {type : ValueType} {pointer value : Name}
      (hpointer : p.HasType a pointer (.pointer storage type))
      (hvalue : p.HasType a value (.value type)) : Typed ⟨.store, [.name pointer, .name value]⟩
  | call {callee : FunctionKey} {arguments : List Name} {result : Name}
      (hcallee : callee ∈ p.calledBy a p.method.code.instructions)
      (harguments : List.Forall₂ (fun n id => p.HasType a n (.value (a.valueType id))) arguments
        callee.parameters) :
      Typed ⟨.functionCall, .name (.value (a.returnValue callee)) :: .name result ::
        .name (.own callee 0) :: arguments.map .name⟩
  | returnValue {value : Name} (hvalue : p.HasType a value (.value (p.returnValue a))) :
      Typed ⟨.returnValue, [.name value]⟩
  | other {line : Line} (hop : line.op ∉ [Op.load, .store, .functionCall, .returnValue]) : Typed line

variable {a : Assembly} {p : Specialized} {op : Il.Operation} {number : Nat} {line : Line}

/-! ## What the names of a function are declared with -/

/-- The variable behind a slot is a pointer to its type. -/
theorem hasType_pointer {i : Nat} (hi : i < p.slotTypes.length) :
    p.HasType a (p.pointer i) (.pointer .function (a.valueType p.slotTypes[i])) :=
  ⟨_, .own (slotLine_mem a (List.getElem?_eq_getElem hi)) rfl, rfl⟩

theorem hasType_slot {slot : Il.Slot} (hslot : p.HasSlot slot) :
    p.HasType a (p.pointer slot.toNat) (.pointer .function (p.slotValue a slot)) := by
  rw [slotValue, List.getElem?_eq_getElem hslot]
  exact hasType_pointer hslot

/-- An incoming parameter is of the type of the key. -/
theorem hasType_incoming {i : Nat} (hi : i < p.key.parameters.length) :
    p.HasType a (p.incoming i) (.value (a.valueType p.key.parameters[i])) :=
  ⟨_, .own (parameterLine_mem a (List.getElem?_eq_getElem hi)) rfl, rfl⟩

/-- What is loaded from a slot is of its type. -/
theorem hasType_loaded {slot : Il.Slot} (hline : p.loadLine a slot number ∈ p.lines a) :
    p.HasType a (p.own number) (.value (p.slotValue a slot)) :=
  ⟨_, .own hline rfl, rfl⟩

theorem hasType_constant (type : ValueType) (bits : Word) :
    p.HasType a (.constant type bits) (.value type) :=
  ⟨_, .declared rfl, rfl⟩

/-- The global variable of a field is a pointer to the type of the field. -/
theorem hasType_global {wire : UInt64} (hwire : (EntityId.ofWire? wire : Option FieldId).isSome) :
    ∃ storage, p.HasType a (p.globalName wire) (.pointer storage (globalType a wire)) := by
  obtain ⟨field, hfield⟩ := Option.isSome_iff_exists.mp hwire
  refine ⟨a.storage field, ?_⟩
  rw [globalName, globalType, hfield]
  exact ⟨_, .declared rfl, rfl⟩

/-! ## The lines of operations -/

theorem typed_loadLine {slot : Il.Slot} (hslot : p.HasSlot slot) :
    p.Typed a (p.loadLine a slot number) :=
  .load (hasType_slot hslot)

theorem typed_storeLine {slot : Il.Slot} {value : Name} (hslot : p.HasSlot slot)
    (hvalue : p.HasType a value (.value (p.slotValue a slot))) :
    p.Typed a (p.storeLine slot value) :=
  .store (hasType_slot hslot) hvalue

/-- The arguments of a call are loaded one after another, each of the type of its slot. -/
theorem hasType_arguments {slots : List Il.Slot} {ids : List TypeId}
    (hloads : p.argumentLines a slots number ⊆ p.lines a)
    (hagree : slots.map (p.slotValue a) = ids.map a.valueType) :
    List.Forall₂ (fun n id => p.HasType a n (.value (a.valueType id)))
      ((List.range' number slots.length).map p.own) ids := by
  induction slots generalizing number ids with
  | nil =>
    obtain rfl := List.map_eq_nil_iff.mp hagree.symm
    exact .nil
  | cons slot slots ih =>
    obtain ⟨id, ids, rfl, hid, hrest⟩ := List.map_eq_cons_iff.mp hagree.symm
    rw [List.length_cons, List.range'_succ, List.map_cons]
    have hlines : p.argumentLines a (slot :: slots) number =
        p.loadLine a slot number :: p.argumentLines a slots (number + 1) := rfl
    rw [hlines] at hloads
    obtain ⟨hload, hloads⟩ := List.cons_subset.mp hloads
    refine .cons ?_ (ih hloads hrest.symm)
    rw [hid]
    exact hasType_loaded hload

/-- The lines of a well-typed operation are well typed. -/
theorem typed_of_mem_operationLines (hop : p.Performs op) (hrefers : p.Refers a op)
    (hagrees : p.Agrees a op) (hall : p.operationLines a number op ⊆ p.lines a)
    (hline : line ∈ p.operationLines a number op) : p.Typed a line := by
  cases op with
  | call result wire slots =>
    obtain ⟨hkey, hslots, hresult⟩ := hrefers
    obtain ⟨callee, hcallee⟩ := Option.isSome_iff_exists.mp hkey
    obtain ⟨harguments, hreturn⟩ := hagrees callee hcallee
    have hlines : p.operationLines a number (.call result wire slots) =
        p.callLines a number result callee slots := by
      rw [operationLines, hcallee]
    rw [hlines] at hline hall
    have hloads : p.argumentLines a slots number ⊆ p.lines a :=
      List.Subset.trans (List.subset_append_left _ _) hall
    have hcall : p.callLine a callee slots.length number ∈ p.lines a :=
      hall (List.mem_append_right _ List.mem_cons_self)
    simp only [callLines, List.mem_append, List.mem_cons, List.mem_map] at hline
    rcases hline with hline | rfl | ⟨slot, hslot, rfl⟩
    · obtain ⟨⟨slot, n⟩, hin, rfl⟩ := List.mem_map.mp hline
      exact typed_loadLine (hslots slot (List.fst_mem_of_mem_zipIdx hin))
    · obtain ⟨i, hi, hdecode⟩ := hop
      have hcalled : callee ∈ p.calledBy a p.method.code.instructions :=
        mem_calledBy hi hdecode (by simp [called, hcallee])
      have htyped := @Typed.call a p _ _ (p.own (number + slots.length)) hcalled
        (hasType_arguments hloads harguments)
      rw [List.map_map] at htyped
      exact htyped
    · have hin := Option.mem_toList.mp hslot
      -- The value is the result of the call, of the type that the callee returns.
      refine typed_storeLine (hresult slot hin) ?_
      rw [hreturn slot hin]
      exact ⟨_, .own hcall rfl, rfl⟩
  | ret =>
    obtain rfl := List.mem_singleton.mp hline
    exact .other (by simp)
  | returnValue value =>
    obtain ⟨slot, rfl, hslot⟩ := hrefers
    have hload : p.loadLine a slot number ∈ p.lines a := hall List.mem_cons_self
    rcases List.mem_pair.mp hline with rfl | rfl
    · exact typed_loadLine hslot
    · refine .returnValue ?_
      rw [← hagrees slot rfl]
      exact hasType_loaded hload
  | load destination source =>
    obtain ⟨hdestination, hsource⟩ := hrefers
    have hload : p.loadLine a source number ∈ p.lines a := hall List.mem_cons_self
    rcases List.mem_pair.mp hline with rfl | rfl
    · exact typed_loadLine hsource
    · refine typed_storeLine hdestination ?_
      rw [hagrees]
      exact hasType_loaded hload
  | loadField destination wire =>
    obtain ⟨hwire, hdestination⟩ := hrefers
    obtain ⟨storage, hglobal⟩ := hasType_global (p := p) (a := a) hwire
    rcases List.mem_pair.mp hline with rfl | rfl
    · exact .load hglobal
    · refine typed_storeLine hdestination ?_
      rw [hagrees]
      exact ⟨_, .own (hall List.mem_cons_self) rfl, rfl⟩
  | storeField wire source =>
    obtain ⟨hwire, hsource⟩ := hrefers
    obtain ⟨storage, hglobal⟩ := hasType_global (p := p) (a := a) hwire
    have hload : p.loadLine a source number ∈ p.lines a := hall List.mem_cons_self
    rcases List.mem_pair.mp hline with rfl | rfl
    · exact typed_loadLine hsource
    · refine .store hglobal ?_
      rw [hagrees]
      exact hasType_loaded hload
  | loadUInt32 destination bits | loadFloat32 destination bits =>
    obtain rfl := List.mem_singleton.mp hline
    exact typed_storeLine hrefers (hasType_constant _ bits)

/-! ## The lines of a function -/

/-- An incoming parameter has the type of the slot that it is stored into. -/
theorem typed_arrivalLine
    (hconcrete : p.method.effectiveParameters.map p.specialization.apply = p.key.parameters) {i : Nat}
    (hi : i < min p.slotTypes.length p.key.parameters.length) : p.Typed a (p.arrivalLine i) := by
  have hslot : i < p.slotTypes.length := by omega
  have hparameter : i < p.key.parameters.length := by omega
  have hsame : p.slotTypes[i] = p.key.parameters[i] := by
    simp only [slotTypes, MethodDef.backedTypes, MethodDef.slotTypes, List.map_take, List.map_append,
      hconcrete, List.getElem_take]
    exact List.getElem_append_left hparameter
  refine .store (hasType_pointer hslot) ?_
  rw [hsame]
  exact hasType_incoming hparameter

/-- The lines of well-typed code are well typed. -/
theorem typed_of_mem_lines
    (hconcrete : p.method.effectiveParameters.map p.specialization.apply = p.key.parameters)
    (hrefers : ∀ op, p.Performs op → p.Refers a op) (hwell : p.WellTyped a) :
    ∀ line ∈ p.lines a, p.Typed a line := by
  refine forall_mem_lines (.other ?_) (fun id i => .other ?_) (.other ?_) (fun id i => .other ?_)
    (fun i hi => typed_arrivalLine hconcrete hi) (fun op hop number hall line hline => ?operation)
    (.other ?_)
  case operation =>
    exact typed_of_mem_operationLines hop (hrefers op hop) (hwell op hop) hall hline
  all_goals simp [functionLine, parameterLine, labelLine, slotLine]

end Specialized

end ShaderLowering
