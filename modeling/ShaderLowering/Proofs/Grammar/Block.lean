import ShaderLowering.Lowering.Body
import ShaderLowering.Proofs.Layout.Streams
import ShaderLowering.Proofs.Lowering.Constructible
import ShaderLowering.Proofs.Lowering.Names

/-!
# Function blocks

The grammar of a function: its first instruction, one for each parameter, a label, a variable for each
slot, a store for each parameter, some instructions for each operation of the method, and its end
(`FunctionBlock.instructions`).  What an operation may become is a relation between the operation and
instructions (`Becomes`), in which slots stand for the variables that back them.  A block implements a
function key if its numbers and the instructions of its operations are those of the method
(`FunctionBlock.Implements`).

The operands that a function has not defined itself mean something outside of it: the declaration of a type
or a constant, the variable of a field, another function.  What there is to refer to is a parameter of the
grammar (`Referents`).  If everything is given other ids, a block under the same ids is a block
(`FunctionBlock.Implements.rename`).
-/

namespace ShaderLowering

open Spirv

/-! ## What a function refers to -/

/-- A type and something that has it. -/
structure Typed where
  type : Word
  id : Word

/-- What the words of a function may refer to outside of it: declarations, the variables of fields, and the
functions of keys, each with its return type. -/
structure Referents where
  declares : Instruction → Prop
  field : FieldId → Word → Prop
  function : FunctionKey → Typed → Prop

namespace Referents

variable (refer : Referents)

/-- There is a constant with some bits. -/
def Constant (bits : Word) (c : Typed) : Prop :=
  refer.declares ⟨Op.constant.code, [c.type, c.id, bits]⟩

/-- A type is that of pointers to another one. -/
def Pointer (storage : StorageClass) (pointee type : Word) : Prop :=
  refer.declares ⟨Op.typePointer.code, [type, storage.code, pointee]⟩

/-- A type is that of functions. -/
def Signature (returnType : Word) (parameters : List Word) (type : Word) : Prop :=
  refer.declares ⟨Op.typeFunction.code, type :: returnType :: parameters⟩

/-- There is a variable for a field, in the storage of the field, that holds values of a type. -/
def Global (a : Assembly) (field : FieldId) (v : Typed) : Prop :=
  refer.field field v.id ∧ ∃ pointer, refer.Pointer (a.storage field) v.type pointer ∧
    refer.declares ⟨Op.variable.code, [pointer, v.id, (a.storage field).code]⟩

end Referents

/-! ## Operations -/

/-- An instruction that loads: what it loads from, with the type of the value there, and the value. -/
structure Load where
  source : Typed
  value : Word

/-- The words of a load. -/
def Load.instruction (load : Load) : Instruction :=
  ⟨Op.load.code, [load.source.type, load.value, load.source.id]⟩

/-- An instruction that stores a value. -/
def storeInstruction (pointer value : Word) : Instruction :=
  ⟨Op.store.code, [pointer, value]⟩

/-- An instruction that calls a function. -/
def callInstruction (callee : Typed) (value : Word) (arguments : List Word) : Instruction :=
  ⟨Op.functionCall.code, callee.type :: value :: callee.id :: arguments⟩

/-- A load takes its value from the place of a slot. -/
def Load.Reads (places : List Typed) (slot : Il.Slot) (load : Load) : Prop :=
  places[slot.toNat]? = some load.source

/-- A value goes to the place of a slot, if there is a slot to go to. -/
inductive Stored (places : List Typed) (value : Word) : Option Il.Slot → List Instruction → Prop
  | nowhere : Stored places value none []
  | into {slot : Il.Slot} {place : Typed} (hplace : places[slot.toNat]? = some place) :
      Stored places value (some slot) [storeInstruction place.id value]

/-- The instructions that an operation becomes in a function whose slots have places: variables, each with
the type of the values that it holds. -/
inductive Becomes (a : Assembly) (p : Specialized) (refer : Referents) (places : List Typed) :
    Il.Operation → List Instruction → Prop
  /-- The arguments are loaded in their order and given to the function that the call is specialized to. -/
  | call {result : Option Il.Slot} {wire : UInt64} {arguments : List Il.Slot} {key : FunctionKey}
      {callee : Typed} {loads : List Load} {value : Word} {stores : List Instruction}
      (hkey : p.calleeKey? a wire arguments = some key) (hcallee : refer.function key callee)
      (hloads : List.Forall₂ (Load.Reads places) arguments loads)
      (hstored : Stored places value result stores) :
      Becomes a p refer places (.call result wire arguments)
        (loads.map Load.instruction ++ callInstruction callee value (loads.map Load.value) :: stores)
  | ret : Becomes a p refer places .ret [⟨Op.ret.code, []⟩]
  | returnValue {slot : Il.Slot} {load : Load} (hload : load.Reads places slot) :
      Becomes a p refer places (.returnValue (some slot))
        [load.instruction, ⟨Op.returnValue.code, [load.value]⟩]
  | load {destination source : Il.Slot} {load : Load} {stores : List Instruction}
      (hload : load.Reads places source)
      (hstored : Stored places load.value (some destination) stores) :
      Becomes a p refer places (.load destination source) (load.instruction :: stores)
  | loadField {destination : Il.Slot} {wire : UInt64} {field : FieldId} {stores : List Instruction}
      (load : Load) (hwire : EntityId.ofWire? wire = some field)
      (hfield : refer.Global a field load.source)
      (hstored : Stored places load.value (some destination) stores) :
      Becomes a p refer places (.loadField destination wire) (load.instruction :: stores)
  | storeField {wire : UInt64} {field : FieldId} {source : Il.Slot} {load : Load} (target : Typed)
      (hwire : EntityId.ofWire? wire = some field) (hfield : refer.Global a field target)
      (hload : load.Reads places source) :
      Becomes a p refer places (.storeField wire source)
        [load.instruction, storeInstruction target.id load.value]
  /-- A number is a constant of the type that the slot holds, which takes no instruction of its own. -/
  | loadUInt32 {destination : Il.Slot} {bits : UInt32} {place : Typed} {value : Word}
      (hplace : places[destination.toNat]? = some place)
      (hconstant : refer.Constant bits ⟨place.type, value⟩) :
      Becomes a p refer places (.loadUInt32 destination bits) [storeInstruction place.id value]
  | loadFloat32 {destination : Il.Slot} {bits : UInt32} {place : Typed} {value : Word}
      (hplace : places[destination.toNat]? = some place)
      (hconstant : refer.Constant bits ⟨place.type, value⟩) :
      Becomes a p refer places (.loadFloat32 destination bits) [storeInstruction place.id value]

/-- Operation by operation, the code of a method becomes groups of instructions. -/
def CodeBecomes (a : Assembly) (p : Specialized) (refer : Referents) (places : List Typed) :
    List Il.Instruction → List (List Instruction) → Prop :=
  List.Forall₂ fun i is => ∃ op, i.decode = .ok op ∧ Becomes a p refer places op is

/-! ## Functions -/

/-- A variable that backs a slot, with its type and the type of the values that it holds. -/
structure SlotVariable where
  type : Word
  id : Word
  holds : Word

/-- The place of a slot. -/
def SlotVariable.place (v : SlotVariable) : Typed :=
  ⟨v.holds, v.id⟩

/-- The parts of a function. -/
structure FunctionBlock where
  returnType : Word
  id : Word
  functionType : Word
  parameters : List Typed
  label : Word
  slots : List SlotVariable
  /-- For each operation the instructions that it has become. -/
  code : List (List Instruction)

namespace FunctionBlock

/-- The places of the slots of the method. -/
def places (b : FunctionBlock) : List Typed :=
  b.slots.map SlotVariable.place

/-- The instructions of a function before those of its operations. -/
def opening (b : FunctionBlock) : List Instruction :=
  ⟨Op.function.code, [b.returnType, b.id, noFunctionControl, b.functionType]⟩ ::
    b.parameters.map (fun p => ⟨Op.functionParameter.code, [p.type, p.id]⟩) ++
    [⟨Op.label.code, [b.label]⟩] ++
    b.slots.map (fun v => ⟨Op.variable.code, [v.type, v.id, StorageClass.function.code]⟩) ++
    (b.slots.zip b.parameters).map fun pair => storeInstruction pair.1.id pair.2.id

/-- The instructions of a function. -/
def instructions (b : FunctionBlock) : List Instruction :=
  b.opening ++ b.code.flatten ++ [⟨Op.functionEnd.code, []⟩]

/-- A block implements the method of a function key.  It has a parameter for each parameter of the key and of
the method, and a variable for each slot, the first of which are for the parameters; where a word cannot
count the slots there are only as many variables as it says.  It goes through the operations of the method in
their order. -/
structure Implements (a : Assembly) (refer : Referents) (key : FunctionKey) (p : Specialized)
    (b : FunctionBlock) : Prop where
  specialized : a.specialized? key = some p
  parameters : b.parameters.length = key.parameters.length
  effective : key.parameters.length = p.method.effectiveParameters.length
  signature : refer.Signature b.returnType (b.parameters.map Typed.type) b.functionType
  backed : b.slots.length = p.method.backedCount
  pointers : ∀ v ∈ b.slots, refer.Pointer .function v.holds v.type
  code : CodeBecomes a p refer b.places p.method.code.instructions b.code

variable {a : Assembly} {refer : Referents} {key : FunctionKey} {p : Specialized} {b : FunctionBlock}

theorem Implements.length_slots (h : b.Implements a refer key p)
    (hcount : p.method.slotCount < UInt32.size) : b.slots.length = p.method.slotCount :=
  h.backed.trans (MethodDef.backedCount_eq hcount)

/-- Every parameter is stored. -/
theorem Implements.length_zip (h : b.Implements a refer key p)
    (hcount : p.method.slotCount < UInt32.size) :
    (b.slots.zip b.parameters).length = key.parameters.length := by
  rw [List.length_zip, h.length_slots hcount, h.parameters, MethodDef.slotCount, h.effective,
    p.method.length_effectiveParameters]
  exact Nat.min_eq_right (Nat.le_add_right _ _)

end FunctionBlock

/-! ## Other ids -/

section Rename

variable {a : Assembly} {p : Specialized} {refer refer' : Referents} {places : List Typed}
  {ρ : Word → Word} {op : Il.Operation} {is : List Instruction} {value : Word} {slot : Il.Slot}
  {load : Load}

/-- An instruction whose operands are all ids has new ones for all of them. -/
theorem Spirv.Instruction.mapIds_of_all {i : Instruction}
    (hall : i.nominalIdPositions = List.range i.operands.length) :
    i.mapIds ρ = ⟨i.opcode, i.operands.map ρ⟩ := by
  have hoperands : (i.mapIds ρ).operands = i.operands.map ρ := by
    refine List.ext_getElem? fun p => ?_
    rw [Instruction.getElem?_operands_mapIds, List.getElem?_map]
    by_cases hin : p < i.operands.length
    · simp [Instruction.idPositions, hall, hin]
    · rw [List.getElem?_eq_none (Nat.le_of_not_gt hin)]
      rfl
  exact congrArg (Instruction.mk i.opcode) hoperands

theorem Spirv.Instruction.mapIds_id : Instruction.mapIds id = id := by
  refine funext fun i => congrArg (Instruction.mk i.opcode) (List.ext_getElem? fun p => ?_)
  simp

/-- A type under another id, and so what has it. -/
def Typed.rename (ρ : Word → Word) (t : Typed) : Typed :=
  ⟨ρ t.type, ρ t.id⟩

/-- What words refer to is there under other ids. -/
structure Referents.Renamed (ρ : Word → Word) (refer refer' : Referents) : Prop where
  declares : ∀ i, refer.declares i → refer'.declares (i.mapIds ρ)
  field : ∀ field w, refer.field field w → refer'.field field (ρ w)
  function : ∀ key f, refer.function key f → refer'.function key (f.rename ρ)

namespace Referents.Renamed

variable (h : Renamed ρ refer refer')

include h

theorem constant {bits : Word} {c : Typed} (hc : refer.Constant bits c) :
    refer'.Constant bits (c.rename ρ) :=
  h.declares _ hc

theorem pointer {storage : StorageClass} {pointee type : Word}
    (htype : refer.Pointer storage pointee type) : refer'.Pointer storage (ρ pointee) (ρ type) :=
  h.declares _ htype

theorem signature {returnType type : Word} {parameters : List Word}
    (htype : refer.Signature returnType parameters type) :
    refer'.Signature (ρ returnType) (parameters.map ρ) (ρ type) := by
  have hnew := h.declares _ htype
  rwa [Instruction.mapIds_of_all rfl] at hnew

theorem global {field : FieldId} {v : Typed} (hv : refer.Global a field v) :
    refer'.Global a field (v.rename ρ) := by
  obtain ⟨hfield, pointer, hpointer, hdeclared⟩ := hv
  exact ⟨h.field _ _ hfield, ρ pointer, h.pointer hpointer, h.declares _ hdeclared⟩

end Referents.Renamed

/-- A load under other ids. -/
def Load.rename (ρ : Word → Word) (load : Load) : Load :=
  ⟨load.source.rename ρ, ρ load.value⟩

@[simp] theorem mapIds_load (load : Load) :
    load.instruction.mapIds ρ = (load.rename ρ).instruction :=
  rfl

@[simp] theorem mapIds_storeInstruction (pointer value : Word) :
    (storeInstruction pointer value).mapIds ρ = storeInstruction (ρ pointer) (ρ value) :=
  rfl

@[simp] theorem mapIds_callInstruction (callee : Typed) (value : Word) (arguments : List Word) :
    (callInstruction callee value arguments).mapIds ρ =
      callInstruction (callee.rename ρ) (ρ value) (arguments.map ρ) :=
  Instruction.mapIds_of_all rfl

theorem getElem?_rename {place : Typed} (hplace : places[slot.toNat]? = some place) :
    (places.map (Typed.rename ρ))[slot.toNat]? = some (place.rename ρ) := by
  rw [List.getElem?_map, hplace]
  rfl

theorem Load.Reads.rename (hload : load.Reads places slot) :
    (load.rename ρ).Reads (places.map (Typed.rename ρ)) slot :=
  getElem?_rename hload

theorem Stored.rename {slot : Option Il.Slot} (hstored : Stored places value slot is) :
    Stored (places.map (Typed.rename ρ)) (ρ value) slot (is.map (Instruction.mapIds ρ)) := by
  cases hstored with
  | nowhere => exact .nowhere
  | into hplace => exact .into (getElem?_rename hplace)

/-- What an operation has become it may have become under other ids. -/
theorem Becomes.rename (hrefer : Referents.Renamed ρ refer refer') (his : Becomes a p refer places op is) :
    Becomes a p refer' (places.map (Typed.rename ρ)) op (is.map (Instruction.mapIds ρ)) := by
  cases his with
  | @call result wire arguments key callee loads value stores hkey hcallee hloads hstored =>
    have hinstructions : (loads.map Load.instruction ++
          callInstruction callee value (loads.map Load.value) :: stores).map (Instruction.mapIds ρ) =
        (loads.map (Load.rename ρ)).map Load.instruction ++
          callInstruction (callee.rename ρ) (ρ value) ((loads.map (Load.rename ρ)).map Load.value) ::
            stores.map (Instruction.mapIds ρ) := by
      simp [Function.comp_def, Load.rename]
    rw [hinstructions]
    refine .call hkey (hrefer.function _ _ hcallee) ?_ hstored.rename
    exact List.forall₂_map_right_iff.mpr (hloads.imp fun _ _ hload => hload.rename)
  | ret => exact .ret
  | returnValue hload => exact .returnValue hload.rename
  | load hload hstored => exact .load hload.rename hstored.rename
  | loadField load hwire hfield hstored =>
    exact .loadField (load.rename ρ) hwire (hrefer.global hfield) hstored.rename
  | storeField target hwire hfield hload =>
    exact .storeField (target.rename ρ) hwire (hrefer.global hfield) hload.rename
  | loadUInt32 hplace hconstant => exact .loadUInt32 (getElem?_rename hplace) (hrefer.constant hconstant)
  | loadFloat32 hplace hconstant => exact .loadFloat32 (getElem?_rename hplace) (hrefer.constant hconstant)

/-- A variable under other ids. -/
def SlotVariable.rename (ρ : Word → Word) (v : SlotVariable) : SlotVariable :=
  ⟨ρ v.type, ρ v.id, ρ v.holds⟩

namespace FunctionBlock

/-- A block under other ids. -/
def rename (ρ : Word → Word) (b : FunctionBlock) : FunctionBlock where
  returnType := ρ b.returnType
  id := ρ b.id
  functionType := ρ b.functionType
  parameters := b.parameters.map (Typed.rename ρ)
  label := ρ b.label
  slots := b.slots.map (SlotVariable.rename ρ)
  code := b.code.map fun is => is.map (Instruction.mapIds ρ)

theorem places_rename (b : FunctionBlock) :
    (b.rename ρ).places = b.places.map (Typed.rename ρ) := by
  simp only [places, rename, List.map_map]
  rfl

theorem instructions_rename (b : FunctionBlock) :
    (b.rename ρ).instructions = b.instructions.map (Instruction.mapIds ρ) := by
  simp only [instructions, opening, rename, List.map_append, List.map_cons, List.map_map, List.map_flatten,
    List.zip_map, List.map_nil]
  rfl

/-- A block under other ids implements what it did. -/
theorem Implements.rename {key : FunctionKey} {b : FunctionBlock}
    (hrefer : Referents.Renamed ρ refer refer') (h : b.Implements a refer key p) :
    (b.rename ρ).Implements a refer' key p where
  specialized := h.specialized
  parameters := (List.length_map _).trans h.parameters
  effective := h.effective
  signature := by
    have htypes : (b.rename ρ).parameters.map Typed.type = (b.parameters.map Typed.type).map ρ := by
      simp only [FunctionBlock.rename, List.map_map]
      rfl
    rw [htypes]
    exact hrefer.signature h.signature
  backed := (List.length_map _).trans h.backed
  pointers := List.forall_mem_map.mpr fun v hv => hrefer.pointer (h.pointers v hv)
  code := by
    rw [places_rename]
    refine List.forall₂_map_right_iff.mpr (h.code.imp fun i is ⟨op, hop, his⟩ => ?_)
    exact ⟨op, hop, his.rename hrefer⟩

end FunctionBlock

/-- Whatever there is to refer to is still there. -/
abbrev Referents.Within (refer refer' : Referents) : Prop :=
  Renamed id refer refer'

theorem Referents.Within.intro (hdeclares : ∀ i, refer.declares i → refer'.declares i)
    (hfield : ∀ field w, refer.field field w → refer'.field field w)
    (hfunction : ∀ key f, refer.function key f → refer'.function key f) : refer.Within refer' :=
  ⟨fun i hi => Instruction.mapIds_id ▸ hdeclares i hi, hfield, hfunction⟩

theorem CodeBecomes.mono {code : List Il.Instruction} {groups : List (List Instruction)}
    (hrefer : refer.Within refer') (hcode : CodeBecomes a p refer places code groups) :
    CodeBecomes a p refer' places code groups := by
  refine hcode.imp fun i is ⟨op, hop, his⟩ => ⟨op, hop, ?_⟩
  have hsame := his.rename hrefer
  rwa [Instruction.mapIds_id, List.map_id, show Typed.rename id = id from rfl, List.map_id] at hsame

theorem FunctionBlock.Implements.mono {key : FunctionKey} {b : FunctionBlock}
    (hrefer : refer.Within refer') (h : b.Implements a refer key p) :
    b.Implements a refer' key p where
  specialized := h.specialized
  parameters := h.parameters
  effective := h.effective
  signature := by
    have hsignature := hrefer.signature h.signature
    rwa [List.map_id] at hsignature
  backed := h.backed
  pointers v hv := hrefer.pointer (h.pointers v hv)
  code := h.code.mono hrefer

end Rename

/-! ## The limits of the format -/

section Fits

variable {a : Assembly} {p : Specialized} {refer : Referents}

/-- Only a call may have more than four operands. -/
theorem Becomes.fits {places : List Typed} {op : Il.Operation} {is : List Instruction}
    (hcalls : ∀ key f, refer.function key f → key.parameters.length + 4 < UInt16.size)
    (his : Becomes a p refer places op is) : ∀ i ∈ is, i.Fits := by
  have hsize : UInt16.size = 65536 := rfl
  have hload : ∀ load : Load, load.instruction.Fits := fun load => by
    simp [Instruction.Fits, Load.instruction, hsize]
  have hstore : ∀ pointer value, (storeInstruction pointer value).Fits := fun pointer value => by
    simp [Instruction.Fits, storeInstruction, hsize]
  have hstored : ∀ {value slot stores}, Stored places value slot stores → ∀ i ∈ stores, i.Fits := by
    rintro value slot stores (_ | hplace)
    · exact List.forall_mem_nil _
    · exact fun i hi => List.mem_singleton.mp hi ▸ hstore _ _
  cases his with
  | @call result wire arguments key callee loads value stores hkey hcallee hloads hinto =>
    refine List.forall_mem_append.mpr ⟨?_, List.forall_mem_cons.mpr ⟨?_, hstored hinto⟩⟩
    · exact List.forall_mem_map.mpr fun load _ => hload load
    · obtain ⟨target, -, -, hlength, hparameters⟩ := Specialized.target?_of_calleeKey? hkey
      have hfit := hcalls key callee hcallee
      -- A call has an operand for each slot and three more.
      rw [hparameters, ← hlength, hloads.length_eq] at hfit
      simpa [Instruction.Fits, callInstruction] using hfit
  | ret => simp [Instruction.Fits, hsize]
  | returnValue _ => simp [Instruction.Fits, Load.instruction, hsize]
  | load _ hinto => exact List.forall_mem_cons.mpr ⟨hload _, hstored hinto⟩
  | loadField _ _ _ hinto => exact List.forall_mem_cons.mpr ⟨hload _, hstored hinto⟩
  | storeField _ _ _ _ =>
    exact List.forall_mem_cons.mpr ⟨hload _, List.forall_mem_singleton.mpr (hstore _ _)⟩
  | loadUInt32 _ _ => exact List.forall_mem_singleton.mpr (hstore _ _)
  | loadFloat32 _ _ => exact List.forall_mem_singleton.mpr (hstore _ _)

/-- The instructions of a block fit the format if the calls do. -/
theorem FunctionBlock.Implements.fits {key : FunctionKey} {b : FunctionBlock}
    (h : b.Implements a refer key p)
    (hcalls : ∀ key f, refer.function key f → key.parameters.length + 4 < UInt16.size) :
    ∀ i ∈ b.instructions, i.Fits := by
  have hsize : UInt16.size = 65536 := rfl
  have hopening : ∀ i ∈ b.opening, i.Fits := by
    intro i hi
    simp only [opening, List.mem_append, List.mem_cons, List.mem_map, List.not_mem_nil, or_false] at hi
    rcases hi with (((rfl | ⟨_, -, rfl⟩) | rfl) | ⟨_, -, rfl⟩) | ⟨_, -, rfl⟩ <;>
      simp [Instruction.Fits, storeInstruction, hsize]
  have hcode : ∀ i ∈ b.code.flatten, i.Fits := by
    intro i hi
    obtain ⟨is, his, hi⟩ := List.mem_flatten.mp hi
    obtain ⟨_, -, op, -, hbecomes⟩ := forall₂_mem_left h.code.flip his
    exact hbecomes.fits hcalls i hi
  refine List.forall_mem_append.mpr ⟨List.forall_mem_append.mpr ⟨hopening, hcode⟩, ?_⟩
  simp [Instruction.Fits, hsize]

end Fits

end ShaderLowering
