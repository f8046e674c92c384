import ShaderLowering.Proofs.Modules.LineTypes
import ShaderLowering.Proofs.Modules.Results

/-!
# Well-typed code becomes well-typed functions

The types in a module are read off the instructions that give ids their meaning: the type of a value
(`Module.typeOf?`), what a pointer type points to (`Module.pointee?`), what a function type takes and
returns (`Module.signature?`).  A block is well typed if its instructions agree on them
(`Module.BlockTyped`).

A module defines no id twice, so the instruction that gives a name its meaning on the lines of a function
is the one that is found in the module (`Materialized.definer?_of_line`), and what holds of the types of lines
holds of those of instructions.
-/

namespace ShaderLowering

open Relation (ReflTransGen)
open Spirv

namespace Spirv

/-- The type of the value that an instruction gives a meaning to: it stands before the result. -/
def Instruction.type? (i : Instruction) : Option Word :=
  if i.resultPosition? = some 1 then i.operands[0]? else none

namespace Module

variable (m : Module)

/-- The instruction that gives an id its meaning. -/
def definer? (id : Word) : Option Instruction :=
  m.instructions.find? fun i => i.defines? = some id

/-- The instruction that gives an id its meaning, if it has an opcode. -/
def definerWith? (op : Op) (id : Word) : Option Instruction :=
  (m.definer? id).filter fun i => i.op? = some op

/-- The type of the value with an id. -/
def typeOf? (id : Word) : Option Word :=
  (m.definer? id).bind Instruction.type?

/-- The type of what pointers of a type point to. -/
def pointee? (type : Word) : Option Word :=
  (m.definerWith? .typePointer type).bind fun i => i.operands[2]?

/-- The return type and the parameter types of a function type. -/
def signature? (type : Word) : Option (Word × List Word) :=
  (m.definerWith? .typeFunction type).bind fun i =>
    i.operands[1]?.map fun returnType => (returnType, i.operands.drop 2)

/-- The function type that a function is declared with. -/
def functionType? (function : Word) : Option Word :=
  (m.definerWith? .function function).bind fun i => i.operands[3]?

/-- The instructions of a function agree on types: the function with the type that it is declared with,
what is loaded and stored with what pointers point to, calls with the types of what they call, and what is
returned with the result type. -/
structure BlockTyped (block : List Instruction) : Prop where
  function : ∃ returnType id control type parameters,
    block.head? = some ⟨Op.function.code, [returnType, id, control, type]⟩ ∧
      m.signature? type = some (returnType, parameters) ∧
      (withOp .functionParameter block).map (fun i => i.operands[0]?) = parameters.map some
  loads : ∀ i ∈ withOp .load block, ∃ type result pointer pointerType,
    i.operands = [type, result, pointer] ∧ m.typeOf? pointer = some pointerType ∧
      m.pointee? pointerType = some type
  stores : ∀ i ∈ withOp .store block, ∃ pointer value pointerType type,
    i.operands = [pointer, value] ∧ m.typeOf? pointer = some pointerType ∧
      m.pointee? pointerType = some type ∧ m.typeOf? value = some type
  calls : ∀ i ∈ withOp .functionCall block, ∃ returnType result callee arguments type parameters,
    i.operands = returnType :: result :: callee :: arguments ∧ m.functionType? callee = some type ∧
      m.signature? type = some (returnType, parameters) ∧
      arguments.map m.typeOf? = parameters.map some
  returns : ∀ i ∈ withOp .returnValue block, ∃ value type,
    i.operands = [value] ∧ m.typeOf? value = some type ∧ blockResult? block = some type

end Module

end Spirv

/-! ## Types of lines in a module -/

section Run

variable {a : Assembly} {requested : List EntryPoint} {e : Emission} {ready : List ReadyEntry}
  {h : History} {key callee : FunctionKey} {p : Specialized} {n type : Name} {line : Line} {m : Module}

/-- The type of a line is that of its instruction. -/
theorem Line.type?_instruction {number : Name → Word} (htype : line.type? = some type) :
    (line.instruction number).type? = some (number type) := by
  rw [Line.type?] at htype
  split at htype
  · next hposition =>
    obtain ⟨o, ho, hname⟩ := Option.bind_eq_some_iff.mp htype
    rw [Instruction.type?, resultPosition?_instruction, if_pos hposition]
    cases o with
    | word w => cases hname
    | name n =>
      obtain rfl := Option.some.inj hname
      simp [Line.instruction, ho]
  · cases htype

/-- The parameter lines of a function carry the types of its parameters. -/
theorem Specialized.map_type_parameterLines (p : Specialized) (number : Name → Word) (ids : List TypeId)
    (position : Nat) :
    ((p.parameterLines a ids position).map (Line.instruction number)).map (fun i => i.operands[0]?) =
      ids.map fun id => some (number (.value (a.valueType id))) := by
  induction ids generalizing position with
  | nil => rfl
  | cons id ids ih => exact congrArg (some (number (.value (a.valueType id))) :: ·) (ih (position + 1))

namespace Materialized

variable (hm : Materialized a (firstAppearances requested) e ready h) (hlegible : e.Legible ready)
  (hprinted : Printed a (firstAppearances requested) h (ReadyEntry.order ready) m)
  (hkey : key ∈ ReadyEntry.order ready) (hp : a.specialized? key = some p)

include hm hlegible hprinted

/-- An instruction of a module that gives an id a meaning is the one that is found. -/
theorem definer?_of_mem {i : Instruction} (hi : i ∈ m.instructions) {w : Word}
    (hw : i.defines? = some w) : m.definer? w = some i := by
  obtain ⟨j, hj⟩ : ∃ j, m.definer? w = some j :=
    Option.isSome_iff_exists.mp (List.find?_isSome.mpr ⟨i, hi, decide_eq_true hw⟩)
  have hdefines : j.defines? = some w := by
    rw [Module.definer?] at hj
    have hfound := List.find?_some hj
    exact of_decide_eq_true hfound
  have hsame : j = i := eq_of_nodup_filterMap (hm.nodup_results hlegible hprinted)
    (List.mem_of_find?_eq_some hj) hi hdefines hw
  rw [hj, hsame]

/-- What declares a name is found in the module. -/
theorem definer?_of_form? (hn : n ∈ names h) (hform : n.form? a = some line) :
    m.definer? (numberOf a (firstAppearances requested) h (ReadyEntry.order ready) n) =
      some (line.instruction
        (numberOf a (firstAppearances requested) h (ReadyEntry.order ready))) := by
  obtain ⟨hdefines, hresultful, -⟩ := Name.defines?_of_form? hform
  have hmem := hm.mem_declarations_of_form? hprinted hn hform
  refine hm.definer?_of_mem hlegible hprinted
    (mem_instructions_of_preamble (List.mem_filter.mp hmem).1) ?_
  rw [hresultful.defines?, hdefines]
  rfl

/-- The line of a function that gives a name its meaning is found in the module. -/
theorem definer?_of_line (hkey : key ∈ ReadyEntry.order ready) (hline : line ∈ a.lines key)
    (hdefines : line.defines? = some n) :
    m.definer? (numberOf a (firstAppearances requested) h (ReadyEntry.order ready) n) =
      some (line.instruction
        (numberOf a (firstAppearances requested) h (ReadyEntry.order ready))) := by
  refine hm.definer?_of_mem hlegible hprinted (mem_instructions_of_line hprinted hkey hline) ?_
  rw [(Assembly.inBody_of_mem_lines hline).resultful.defines?, hdefines]
  rfl

/-- The type of a name is found in the module, and has an id itself. -/
theorem typeOf?_eq (hkey : key ∈ ReadyEntry.order ready) (hp : a.specialized? key = some p)
    (hn : n ∈ names h) (htype : p.HasType a n type) : type ∈ names h ∧
      m.typeOf? (numberOf a (firstAppearances requested) h (ReadyEntry.order ready) n) =
        some (numberOf a (firstAppearances requested) h (ReadyEntry.order ready) type) := by
  obtain ⟨line, hmeans, htype⟩ := htype
  have hname : type ∈ line.names := Line.mem_names_of_type? htype
  rw [Module.typeOf?]
  cases hmeans with
  | declared hform =>
    rw [hm.definer?_of_form? hlegible hprinted hn hform]
    refine ⟨?_, Line.type?_instruction htype⟩
    rcases (Name.mem_names_of_form? hform).mp hname with rfl | hpart
    · exact hn
    · exact hm.account.grounded.parts_mem hn _ hpart
  | own hline hdefines =>
    rw [← Assembly.lines_of_specialized hp] at hline
    rw [hm.definer?_of_line hlegible hprinted hkey hline hdefines]
    exact ⟨hm.mem_names_of_line hkey hline hname, Line.type?_instruction htype⟩

/-- Pointers of a pointer type point to what its name says. -/
theorem pointee?_eq {storage : StorageClass} {pointee : ValueType}
    (hn : .pointer storage pointee ∈ names h) :
    m.pointee? (numberOf a (firstAppearances requested) h (ReadyEntry.order ready)
        (.pointer storage pointee)) =
      some (numberOf a (firstAppearances requested) h (ReadyEntry.order ready) (.value pointee)) := by
  rw [Module.pointee?, Module.definerWith?, hm.definer?_of_form? hlegible hprinted hn rfl,
    Option.filter_some, if_pos (by simp)]
  rfl

/-- A function type takes and returns what its name says. -/
theorem signature?_eq {returnType : ValueType} {parameters : List ValueType}
    (hn : .signature returnType parameters ∈ names h) :
    m.signature? (numberOf a (firstAppearances requested) h (ReadyEntry.order ready)
        (.signature returnType parameters)) =
      some (numberOf a (firstAppearances requested) h (ReadyEntry.order ready) (.value returnType),
        parameters.map fun t =>
          numberOf a (firstAppearances requested) h (ReadyEntry.order ready) (.value t)) := by
  rw [Module.signature?, Module.definerWith?, hm.definer?_of_form? hlegible hprinted hn rfl,
    Option.filter_some, if_pos (by simp)]
  simp [Line.instruction, Function.comp_def]

/-- A function is declared with the type that its key says. -/
theorem functionType?_eq (hkey : key ∈ ReadyEntry.order ready) (hp : a.specialized? key = some p) :
    p.signature a ∈ names h ∧
      m.functionType? (numberOf a (firstAppearances requested) h (ReadyEntry.order ready)
          (.own key 0)) =
        some (numberOf a (firstAppearances requested) h (ReadyEntry.order ready)
          (p.signature a)) := by
  obtain ⟨rfl, -, -⟩ := Assembly.specialized?_eq_some.mp hp
  have hline : p.functionLine a ∈ a.lines p.key := by
    rw [Assembly.lines_of_specialized hp]
    exact p.functionLine_mem a
  refine ⟨hm.mem_names_of_line hkey hline ?_, ?_⟩
  · simp [Specialized.functionLine, Line.names, Operand.name?]
  · have hfound := hm.definer?_of_line hlegible hprinted hkey hline (n := .own p.key 0) rfl
    rw [Module.functionType?, Module.definerWith?, hfound, Option.filter_some,
      if_pos (by simp [Specialized.functionLine])]
    rfl

/-- A name that is a pointer has a type in the module that points to what the pointer points to. -/
theorem exists_pointee?_eq (hkey : key ∈ ReadyEntry.order ready) (hp : a.specialized? key = some p)
    {storage : StorageClass} {pointee : ValueType} (hn : n ∈ names h)
    (htype : p.HasType a n (.pointer storage pointee)) : ∃ type,
      m.typeOf? (numberOf a (firstAppearances requested) h (ReadyEntry.order ready) n) = some type ∧
        m.pointee? type =
          some (numberOf a (firstAppearances requested) h (ReadyEntry.order ready) (.value pointee)) := by
  obtain ⟨hpointer, htypeOf⟩ := hm.typeOf?_eq hlegible hprinted hkey hp hn htype
  exact ⟨_, htypeOf, hm.pointee?_eq hlegible hprinted hpointer⟩

/-- A block begins with a function whose type takes what its parameters are. -/
theorem function_typed (hkey : key ∈ ReadyEntry.order ready) (hp : a.specialized? key = some p)
    {block : List Instruction} (hblock : block = (a.lines key).map (Line.instruction
      (numberOf a (firstAppearances requested) h (ReadyEntry.order ready)))) :
    ∃ returnType id control type parameters,
      block.head? = some ⟨Op.function.code, [returnType, id, control, type]⟩ ∧
        m.signature? type = some (returnType, parameters) ∧
        (withOp .functionParameter block).map (fun i => i.operands[0]?) = parameters.map some := by
  obtain ⟨hsignature, -⟩ := hm.functionType?_eq hlegible hprinted hkey hp
  rw [hblock, Assembly.lines_of_specialized hp]
  refine ⟨_, _, _, _, _, rfl, hm.signature?_eq hlegible hprinted hsignature, ?_⟩
  rw [withOp_map, Specialized.filter_parameter_lines, Specialized.map_type_parameterLines, List.map_map,
    List.map_map]
  rfl

/-- A call has the result and the arguments that the type of its callee says. -/
theorem call_typed (hkey : key ∈ ReadyEntry.order ready) (hp : a.specialized? key = some p)
    (hcallee : callee ∈ p.calledBy a p.method.code.instructions) {arguments : List Name}
    (hknown : ∀ n ∈ arguments, n ∈ names h)
    (harguments : List.Forall₂ (fun n id => p.HasType a n (.value (a.valueType id))) arguments
      callee.parameters) : ∃ type parameters,
      m.functionType? (numberOf a (firstAppearances requested) h (ReadyEntry.order ready)
          (.own callee 0)) = some type ∧
        m.signature? type = some (numberOf a (firstAppearances requested) h (ReadyEntry.order ready)
          (.value (a.returnValue callee)), parameters) ∧
        (arguments.map (numberOf a (firstAppearances requested) h (ReadyEntry.order ready))).map
          m.typeOf? = parameters.map some := by
  have hmem : callee ∈ ReadyEntry.order ready := by
    refine hm.callee_mem_order hlegible hkey ?_
    rw [Assembly.callees, hp]
    exact hcallee
  obtain ⟨p', hp'⟩ := (hm.constructible_of_mem hmem).specialized
  obtain ⟨hcalled, -, -⟩ := Assembly.specialized?_eq_some.mp hp'
  obtain ⟨hsignature, hfunction⟩ := hm.functionType?_eq hlegible hprinted hmem hp'
  have hreturn : a.returnValue callee = p'.returnValue a := by rw [Assembly.returnValue, hp']
  rw [hreturn]
  refine ⟨_, _, hfunction, hm.signature?_eq hlegible hprinted hsignature, ?_⟩
  rw [hcalled, List.map_map, List.map_map, List.map_map]
  have hall := (List.forall₂_and_left _ _).mpr ⟨hknown, harguments⟩
  rw [← List.forall₂_eq_eq_eq, List.forall₂_map_left_iff, List.forall₂_map_right_iff]
  exact hall.imp fun n id hboth => (hm.typeOf?_eq hlegible hprinted hkey hp hboth.1 hboth.2).2

/-- Where the lines of a function are well typed, so is its block. -/
theorem blockTyped (hkey : key ∈ ReadyEntry.order ready) (hp : a.specialized? key = some p)
    (htyped : ∀ line ∈ p.lines a, p.Typed a line) :
    m.BlockTyped ((a.lines key).map (Line.instruction
      (numberOf a (firstAppearances requested) h (ReadyEntry.order ready)))) := by
  set number := numberOf a (firstAppearances requested) h (ReadyEntry.order ready)
  have hknown : ∀ {line n}, line ∈ a.lines key → n ∈ line.names → n ∈ names h := fun hline hn =>
    hm.mem_names_of_line hkey hline hn
  have hinstruction : ∀ {op i}, i ∈ withOp op ((a.lines key).map (Line.instruction number)) →
      ∃ line, line ∈ a.lines key ∧ p.Typed a line ∧ line.op = op ∧ i = line.instruction number := by
    intro op i hi
    rw [withOp_map] at hi
    obtain ⟨line, hline, rfl⟩ := List.mem_map.mp hi
    obtain ⟨hline, hop⟩ := List.mem_filter.mp hline
    refine ⟨line, hline, htyped line ?_, of_decide_eq_true hop, rfl⟩
    rwa [← Assembly.lines_of_specialized hp]
  constructor
  case function => exact hm.function_typed hlegible hprinted hkey hp rfl
  case loads =>
    intro i hi
    obtain ⟨line, hline, htyped, hop, rfl⟩ := hinstruction hi
    cases htyped with
    | load hpointer =>
      obtain ⟨type, htype, hpointee⟩ := hm.exists_pointee?_eq hlegible hprinted hkey hp
        (hknown hline (by simp [Line.names, Operand.name?])) hpointer
      exact ⟨_, _, _, type, rfl, htype, hpointee⟩
    | other hother => simp [hop] at hother
    | _ => cases hop
  case stores =>
    intro i hi
    obtain ⟨line, hline, htyped, hop, rfl⟩ := hinstruction hi
    cases htyped with
    | store hpointer hvalue =>
      obtain ⟨type, htype, hpointee⟩ := hm.exists_pointee?_eq hlegible hprinted hkey hp
        (hknown hline (by simp [Line.names, Operand.name?])) hpointer
      obtain ⟨-, hvalue⟩ := hm.typeOf?_eq hlegible hprinted hkey hp
        (hknown hline (by simp [Line.names, Operand.name?])) hvalue
      exact ⟨_, _, type, _, rfl, htype, hpointee, hvalue⟩
    | other hother => simp [hop] at hother
    | _ => cases hop
  case calls =>
    intro i hi
    obtain ⟨line, hline, htyped, hop, rfl⟩ := hinstruction hi
    cases htyped with
    | @call callee arguments result hcallee harguments =>
      obtain ⟨type, parameters, hfunction, hsignature, htypes⟩ := hm.call_typed hlegible hprinted hkey hp
        hcallee (fun n hn => hknown hline
          (by simp [Line.names, Operand.name?, List.filterMap_map, Function.comp_def, hn])) harguments
      refine ⟨_, number result, _, arguments.map number, type, parameters, ?_, hfunction, hsignature,
        htypes⟩
      simp [Line.instruction, Function.comp_def, number]
    | other hother => simp [hop] at hother
    | _ => cases hop
  case returns =>
    intro i hi
    obtain ⟨line, hline, htyped, hop, rfl⟩ := hinstruction hi
    cases htyped with
    | returnValue hvalue =>
      obtain ⟨-, hvalue⟩ := hm.typeOf?_eq hlegible hprinted hkey hp
        (hknown hline (by simp [Line.names, Operand.name?])) hvalue
      refine ⟨_, _, rfl, hvalue, ?_⟩
      rw [Assembly.lines_of_specialized hp]
      rfl
    | other hother => simp [hop] at hother
    | _ => cases hop

omit hprinted in
/-- The keys of a module are those of methods or those of calls. -/
theorem obtained (hkey : key ∈ ReadyEntry.order ready) : key.Obtained a := by
  obtain ⟨root, hroot, hpath⟩ := (hm.preorder_order hlegible).mem_iff.mp hkey
  rcases hpath.cases_tail with rfl | ⟨caller, -, hcall⟩
  · obtain ⟨entry, -, hentry⟩ := List.mem_filterMap.mp hroot
    obtain ⟨method, hmethod, rfl⟩ := Option.map_eq_some_iff.mp hentry
    exact .ofMethod hmethod
  · rw [Assembly.callees] at hcall
    split at hcall
    · cases hcall
    · next p hp =>
      have hcallees := Assembly.callees_eq hp
      rw [Assembly.callees, hp] at hcallees
      dsimp only at hcallees
      rw [hcallees] at hcall
      obtain ⟨site, -, hcallee⟩ := List.mem_filterMap.mp hcall
      exact .call hcallee

end Materialized

end Run

/-! ## The statement -/

/-- A function that the entry points of a module reach has a well-typed block there if its code is well
typed, as long as the ids that have been issued fit a word: types are told apart by their ids. -/
theorem compiled_blockTyped {a : Assembly} (hbuilt : a.Built) {requested : List EntryPoint}
    {config : Config} {e : Emission} {ready : List ReadyEntry} {m : Module}
    (hcompiled : Compiled a requested config e ready m) (hfits : e.InstructionsFit ready)
    {root key : FunctionKey} (hroot : root ∈ a.entryKeys requested)
    (hreached : ReflTransGen (fun caller callee => callee ∈ a.callees caller) root key)
    {p : Specialized} (hp : a.specialized? key = some p) (hwell : p.WellTyped a) :
    e.ids.issued < UInt32.size →
      ∃ keys number block, FunctionBlocks a requested m keys number ∧
        (key, block) ∈ keys.zip m.blocks ∧ m.BlockTyped block := by
  intro hids
  have hlegible : e.Legible ready := ⟨hfits, hids⟩
  obtain ⟨⟨h, hm⟩, rfl⟩ := hcompiled.materialized hids
  have hprinted := hm.printed hfits config
  have hblocks := hm.functionBlocks hlegible hprinted
  have hkey : key ∈ ReadyEntry.order ready := (hblocks.reached key).mpr ⟨root, hroot, hreached⟩
  -- The types of its parameters are concrete, so substitution leaves them as they are.
  have hconcrete : p.method.effectiveParameters.map p.specialization.apply = p.key.parameters := by
    rw [(hm.obtained hlegible hkey).apply_eq hbuilt.numbered hp, (Assembly.specialized?_eq_some.mp hp).1]
  have hrefers : ∀ op, p.Performs op → p.Refers a op := by
    have hconstructible := hm.constructible_of_mem hkey
    rw [← (Assembly.specialized?_eq_some.mp hp).1] at hconstructible hp
    exact fun op hop => (hconstructible.feasible hp hop).refers
  have htyped := Specialized.typed_of_mem_lines hconcrete hrefers hwell
  exact ⟨_, _, _, hblocks, (hm.mem_zip_blocks_iff hprinted).mpr ⟨hkey, rfl⟩,
    hm.blockTyped hlegible hprinted hkey hp htyped⟩

section Painter

open Il (Code Operation)

/-- The program of the two methods before all of their locals and operations are added. -/
def painterWith (locals : List TypeId) (painting shading : Code) : Assembly :=
  { painter with
    methods := #[{ paint with locals := locals, code := painting }, { shade with code := shading }] }

theorem painter_built : painter.Built := by
  have htypes := (Assembly.Built.addType (.empty "painter") "F" .plain
    [.representation (some "OpTypeFloat\x6032")]).addType "T" .genericParameter []
  have hfield := htypes.defineField ⟨0⟩ ⟨0⟩ "color" [.static, .storage .output, .location 0] rfl
  have hpaint := hfield.defineMethod ⟨0⟩ "paint" none [] [.static] rfl
  have hshade : (painterWith [] .empty .empty).Built :=
    hpaint.defineMethod ⟨0⟩ "shade" (some ⟨1⟩) [⟨1⟩] [.static] rfl
  have hlocal : (painterWith [⟨0⟩] .empty .empty).Built := hshade.addLocal ⟨0⟩ ⟨0⟩ rfl
  have hlocals : (painterWith [⟨0⟩, ⟨0⟩] .empty .empty).Built := hlocal.addLocal ⟨0⟩ ⟨0⟩ rfl
  have hpush : ∀ {code i}, (painterWith [⟨0⟩, ⟨0⟩] code .empty).Built →
      (painterWith [⟨0⟩, ⟨0⟩] (code.push i) .empty).Built := fun h => h.push ⟨0⟩ _ rfl
  have hcode : (painterWith [⟨0⟩, ⟨0⟩] paint.code .empty).Built :=
    hpush (hpush (hpush (hpush hlocals)))
  exact hcode.push ⟨1⟩ (Operation.returnValue (some 0)).encode rfl

/-- The caller, as its key says. -/
def painting : Specialized :=
  ⟨⟨⟨0⟩, []⟩, paint, .empty⟩

/-- The generic method at the type of numbers. -/
def shading : Specialized :=
  ⟨⟨⟨1⟩, [⟨0⟩]⟩, shade, ⟨[(⟨1⟩, ⟨0⟩)]⟩⟩

theorem painting_wellTyped : painting.WellTyped painter := by
  have hcode : paint.code.instructions = [(Operation.loadFloat32 0 0x3f800000).encode,
      (Operation.call (some 1) 1 [0]).encode, (Operation.storeField 0 1).encode,
      Operation.ret.encode] := rfl
  rintro op ⟨i, hi, hdecode⟩
  rw [painting, hcode] at hi
  simp only [List.mem_cons, List.not_mem_nil, or_false] at hi
  rcases hi with rfl | rfl | rfl | rfl
  · obtain rfl : Operation.loadFloat32 0 0x3f800000 = op := Except.ok.inj hdecode
    trivial
  · obtain rfl : Operation.call (some 1) 1 [0] = op := Except.ok.inj hdecode
    intro callee hcallee
    obtain rfl : (⟨⟨1⟩, [⟨0⟩]⟩ : FunctionKey) = callee := Option.some.inj hcallee
    refine ⟨rfl, fun slot hslot => ?_⟩
    obtain rfl : 1 = slot := Option.some.inj hslot
    rfl
  · obtain rfl : Operation.storeField 0 1 = op := Except.ok.inj hdecode
    exact rfl
  · obtain rfl : Operation.ret = op := Except.ok.inj hdecode
    trivial

theorem shading_wellTyped : shading.WellTyped painter := by
  have hcode : shade.code.instructions = [(Operation.returnValue (some 0)).encode] := rfl
  rintro op ⟨i, hi, hdecode⟩
  rw [shading, hcode] at hi
  obtain rfl := List.mem_singleton.mp hi
  obtain rfl : Operation.returnValue (some 0) = op := Except.ok.inj hdecode
  intro slot hslot
  obtain rfl : 0 = slot := Option.some.inj hslot
  rfl

/-- The caller and the generic method at the type of numbers have well-typed blocks. -/
theorem painter_blockTyped : painter.Built ∧ painterSession.shared.InstructionsFit painterReady ∧
    painterSession.shared.ids.issued < UInt32.size ∧
    (painting.WellTyped painter ∧ ∃ keys number block,
      FunctionBlocks painter painterEntries painterModule keys number ∧
        (painting.key, block) ∈ keys.zip painterModule.blocks ∧ painterModule.BlockTyped block) ∧
    shading.WellTyped painter ∧ ∃ keys number block,
      FunctionBlocks painter painterEntries painterModule keys number ∧
        (shading.key, block) ∈ keys.zip painterModule.blocks ∧ painterModule.BlockTyped block := by
  have hroot : painting.key ∈ painter.entryKeys painterEntries := List.mem_singleton_self _
  have hcall : shading.key ∈ painter.callees painting.key := List.mem_singleton_self _
  refine ⟨painter_built, painter_instructionsFit, painter_issued, ⟨painting_wellTyped, ?_⟩,
    shading_wellTyped, ?_⟩
  · exact compiled_blockTyped painter_built painter_compiled painter_instructionsFit hroot .refl rfl
      painting_wellTyped painter_issued
  · exact compiled_blockTyped painter_built painter_compiled painter_instructionsFit hroot
      (.single hcall) rfl shading_wellTyped painter_issued

end Painter

end ShaderLowering
