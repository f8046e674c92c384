import ShaderLowering.Proofs.Grammar.Formation
import ShaderLowering.Proofs.Modules.Interface

/-!
# The sections of a module

The grammar of a module (`Outline.instructions`): a capability and a memory model, the entry points and then
their modes, decorations, declarations, and functions, each of which is a block.  Behind the five words of
its header a module has the words of an outline and no others, and the outline is one for the entry points
that were requested (`Outlines`): they stand in their order, and the blocks implement the methods.

Every function that a run makes is formed (`Surveyed.formed`), so all that it has written for a module has an
outline, and still has one when the layout has turned declarations and annotations around within their
sections and put other ids in (`Outline.instructions_ofRun`).

Functions and variables are told apart by their ids.  As long as there are enough of these, the function that
is named is the one of the key that is meant, and the variable of a field backs no slot; if not, the function
is at least one of those of the module.
-/

namespace ShaderLowering

open Construction
open Spirv
open Layout (functionsOf newId)

/-! ## Outlines -/

/-- An entry point in a module: its execution model, its function, the words behind these, and the mode. -/
structure Outline.Entry where
  model : Word
  function : Word
  rest : List Word
  mode : Word

namespace Outline.Entry

/-- The instruction that declares an entry point. -/
def declaration (entry : Entry) : Instruction :=
  ⟨Op.entryPoint.code, entry.model :: entry.function :: entry.rest⟩

/-- The instruction that sets the execution mode of its function. -/
def modeSetting (entry : Entry) : Instruction :=
  ⟨Op.executionMode.code, [entry.function, entry.mode]⟩

end Outline.Entry

/-- The parts of a module. -/
structure Outline where
  entries : List Outline.Entry
  /-- The fields that have variables, each with the id of its variable. -/
  fields : List (FieldId × Word)
  decorations : List Instruction
  declarations : List Instruction
  /-- The functions, each with the key that it has been made for. -/
  functions : List (FunctionKey × FunctionBlock)

namespace Outline

/-- The instructions of a module, section by section. -/
def instructions (o : Outline) : List Instruction :=
  [⟨Op.capability.code, [shaderCapability]⟩, ⟨Op.memoryModel.code, [logicalAddressing, glsl450]⟩] ++
    o.entries.map Entry.declaration ++ o.entries.map Entry.modeSetting ++ o.decorations ++
    o.declarations ++ o.functions.flatMap fun f => f.2.instructions

/-- A word is the id of one of the functions, which is that of a key and has a return type if ids tell
functions apart. -/
def Names (o : Outline) (apart : Prop) (key : FunctionKey) (callee : Typed) : Prop :=
  ∃ f ∈ o.functions, f.2.id = callee.id ∧ (apart → f.1 = key ∧ f.2.returnType = callee.type)

/-- What a function may refer to: declarations, functions, and the variables of fields, which are none of its
own if ids tell variables apart. -/
def referents (o : Outline) (apart : Prop) (b : FunctionBlock) : Referents where
  declares i := i ∈ o.declarations
  field field w := (field, w) ∈ o.fields ∧ (apart → ∀ v ∈ b.slots, v.id ≠ w)
  function := o.Names apart

end Outline

/-- An instruction of the declarations: a type, a constant, or a variable that is not of a function. -/
inductive Spirv.Instruction.IsModuleLevel (i : Instruction) : Prop
  | type {op : Op} (hop : i.op? = some op) (htype : op ∈ typeOps)
  | constant (hop : i.op? = some .constant)
  | global {storage : Word} (hop : i.op? = some .variable) (hstorage : i.operands[2]? = some storage)
      (hglobal : storage ≠ StorageClass.function.code)

/-- An outline is that of a module for entry points of an assembly. -/
structure Outlines (a : Assembly) (requested : List EntryPoint) (config : Config) (apart : Prop)
    (m : Module) (o : Outline) : Prop where
  words : m = .ofWords (magic :: config.version :: config.generator :: m.bound :: 0 ::
    o.instructions.flatMap Instruction.encode)
  /-- The decoder finds the instructions of the outline and nothing else. -/
  decoded : m.instructions = o.instructions
  entries : List.Forall₂ (fun entry e => ∃ method, a.method? entry.method = some method ∧
      e.model = entry.model.code ∧ entry.model.mode = .ok e.mode ∧
      (∃ type, o.Names apart (FunctionKey.ofMethod method) ⟨type, e.function⟩) ∧
      (NulFree method.fullName → literalString method.fullName <+: e.rest))
    (firstAppearances requested) o.entries
  fields : (o.fields.map Prod.fst).Nodup
  decorations : ∀ i ∈ o.decorations, i.op? = some .decorate
  ascending : o.decorations.Pairwise Layout.Precedes
  declarations : ∀ i ∈ o.declarations, i.IsModuleLevel
  functions : ∀ f ∈ o.functions, ∃ p, f.2.Implements a (o.referents apart f.2) f.1 p

/-! ## Runs -/

section Runs

variable {a : Assembly} {requested : List EntryPoint} {e : Emission} {ready : List ReadyEntry}
  {h : Inventory} {f g : Function}

/-- The functions of the entry points are formed. -/
theorem Surveyed.formed (hnumbered : a.Numbered)
    (hh : Surveyed a (firstAppearances requested) e ready h) :
    List.Forall₂ (fun entry r => ∃ method f mode, a.method? entry.method = some method ∧
        entry.model.mode = .ok mode ∧ r = ⟨entry.model, mode, method.fullName, f⟩ ∧
        f.key = FunctionKey.ofMethod method ∧ Formed a h f)
      (firstAppearances requested) ready := by
  obtain ⟨function?, hready, hshown⟩ := hh.ready
  refine (mapM_eq_ok.mp hready).imp fun entry r hr => ?_
  obtain ⟨method, f, mode, hmethod, hf, hmode, rfl⟩ := ReadyEntry.ofEntry_eq_ok.mp hr
  obtain ⟨hkey, hformed⟩ := (hshown _ f hf).2
  refine ⟨method, f, mode, hmethod, hmode, rfl, hkey, hformed hnumbered fun method' hmethod' => ?_⟩
  exact (FunctionKey.Obtained.ofMethod hmethod).length hnumbered hmethod'

/-! ## Blocks in the place of functions -/

theorem Formed.of_below (hf : Formed a h f) (hbelow : f.Below g) : Formed a h g := by
  induction hbelow with
  | refl => exact hf
  | tail _ hg ih =>
    obtain ⟨_, _, _, _, _, hcallees⟩ := ih
    exact hcallees _ hg

/-- A block, with a function key, is what the words of a function read back as.  The variables of its slots
have been given ids of their own. -/
structure Function.IsBlock (a : Assembly) (h : Inventory) (f : Function)
    (b : FunctionKey × FunctionBlock) : Prop where
  key : b.1 = f.key
  id : b.2.id = f.id.raw
  returnType : b.2.returnType = f.returnType.raw
  decoded : Instruction.decode f.body = b.2.instructions
  implements : ∃ p, b.2.Implements a (h.referents f.callees) f.key p
  taken : ∀ v ∈ b.2.slots, ∃ id, h.Taken id ∧ id.raw = v.id

/-- The variable of a slot is declared in its block. -/
theorem FunctionBlock.mem_instructions_of_slot {b : FunctionBlock} {v : SlotVariable} (hv : v ∈ b.slots) :
    ⟨Op.variable.code, [v.type, v.id, StorageClass.function.code]⟩ ∈ b.instructions := by
  simp only [FunctionBlock.instructions, FunctionBlock.opening, List.mem_append, List.mem_cons, List.mem_map]
  exact .inl (.inl (.inl (.inr ⟨v, hv, rfl⟩)))

theorem Formed.exists_block (hf : Formed a h f) (hwritten : Written h f) (hcalls : f.CallsFit) :
    ∃ b, f.IsBlock a h b := by
  obtain ⟨b, hid, hreturn, hbody, himplements, -⟩ := hf
  have hfits : ∀ i ∈ b.instructions, i.Fits := himplements.fits fun key w hcalled => by
    obtain ⟨g, hg, rfl, -⟩ := hcalled
    exact hcalls g hg
  have hdecoded : Instruction.decode f.body = b.instructions := by
    rw [hbody, Instruction.decode_flatMap_encode hfits]
  refine ⟨(f.key, b), rfl, hid, hreturn, hdecoded, ⟨_, himplements⟩, fun v hv => ?_⟩
  have hmem := FunctionBlock.mem_instructions_of_slot hv
  rw [← hdecoded] at hmem
  exact (hwritten.sourced hcalls _ hmem).taken_of_defines? rfl

/-- The words of functions are those of their blocks. -/
theorem functionsOf_eq {fs : List Function} {bs : List (FunctionKey × FunctionBlock)}
    (hblocks : List.Forall₂ (Function.IsBlock a h) fs bs) :
    functionsOf (fs.map Function.body) = bs.flatMap fun b => b.2.instructions := by
  induction hblocks with
  | nil => rfl
  | cons hb _ ih =>
    rw [List.map_cons, functionsOf, List.flatMap_cons, hb.decoded, List.flatMap_cons, ← ih, functionsOf]

end Runs

/-! ## Entry points under other ids -/

section Entries

variable (ρ : Word → Word) (interface : List GlobalVariable) (r : ReadyEntry)

/-- An entry point whose function is ready, under other ids. -/
def Outline.Entry.ofReady : Outline.Entry where
  model := r.model.code
  function := ρ r.function.id.raw
  rest := ((r.instruction interface).mapIds ρ).operands.drop 2
  mode := r.mode

theorem Spirv.Instruction.interfaceStart_pos (w : Word) (ws : List Word) :
    0 < Instruction.interfaceStart (w :: ws) := by
  unfold Instruction.interfaceStart
  split
  · exact Nat.succ_pos _
  · exact Nat.succ_pos _

/-- Of the first two words of an entry point the second is an id. -/
theorem ReadyEntry.mem_idPositions :
    0 ∉ (r.instruction interface).idPositions ∧ 1 ∈ (r.instruction interface).idPositions := by
  have hop : (r.instruction interface).op? = some .entryPoint := Op.ofCode?_code .entryPoint
  have hpos : 0 < Instruction.interfaceStart (r.instruction interface).operands :=
    Instruction.interfaceStart_pos _ _
  have hlength : 1 < (r.instruction interface).operands.length := Nat.succ_lt_succ (Nat.succ_pos _)
  simp only [Instruction.idPositions, Instruction.nominalIdPositions, hop, List.mem_filter, List.mem_cons,
    List.mem_range'_1, decide_eq_true_eq]
  refine ⟨?_, .inl trivial, hlength⟩
  omega

theorem declaration_ofReady :
    (Outline.Entry.ofReady ρ interface r).declaration = (r.instruction interface).mapIds ρ := by
  obtain ⟨hmodel, hfunction⟩ := r.mem_idPositions interface
  have hoperands : r.model.code :: ρ r.function.id.raw ::
      ((r.instruction interface).mapIds ρ).operands.drop 2 =
        ((r.instruction interface).mapIds ρ).operands := by
    refine List.ext_getElem? fun p => ?_
    rcases p with _ | _ | p
    · have hword : (r.instruction interface).operands[0]? = some r.model.code := rfl
      rw [Instruction.getElem?_operands_mapIds, hword]
      simp [hmodel]
    · have hword : (r.instruction interface).operands[1]? = some r.function.id.raw := rfl
      rw [Instruction.getElem?_operands_mapIds, hword]
      simp [hfunction]
    · rw [List.getElem?_cons_succ, List.getElem?_cons_succ, List.getElem?_drop, Nat.add_comm 2]
  exact congrArg (Instruction.mk _) hoperands

theorem modeSetting_ofReady :
    (Outline.Entry.ofReady ρ interface r).modeSetting = r.modeInstruction.mapIds ρ :=
  rfl

/-- A name that is without the zero character stays as it is. -/
theorem name_isPrefix_ofReady (hname : NulFree r.name) :
    literalString r.name <+: (Outline.Entry.ofReady ρ interface r).rest := by
  refine List.prefix_iff_getElem?.mpr fun p hp => ?_
  have hpositions := idPositions_entryPoint hname r.model.code r.function.id.raw
    ((interface.map GlobalVariable.id).map Id.raw)
  have hplain : 2 + p ∉ (r.instruction interface).idPositions := by
    rw [ReadyEntry.instruction, hpositions, List.mem_cons, List.mem_range'_1]
    omega
  have hword : (r.instruction interface).operands[2 + p]? = some (literalString r.name)[p] := by
    rw [Nat.add_comm 2, ReadyEntry.instruction, List.cons_append, List.cons_append,
      List.getElem?_cons_succ, List.getElem?_cons_succ, List.getElem?_append_left hp,
      List.getElem?_eq_getElem hp]
  rw [Outline.Entry.ofReady, List.getElem?_drop, Instruction.getElem?_operands_mapIds, hword]
  simp [hplain]

end Entries

/-! ## Declarations -/

section Declarations

variable {i : Instruction}

/-- Under other ids such an instruction is still one. -/
theorem Spirv.Instruction.IsModuleLevel.mapIds (ρ : Word → Word) (hi : i.IsModuleLevel) :
    (i.mapIds ρ).IsModuleLevel := by
  cases hi with
  | type hop htype => exact .type ((Instruction.op?_mapIds ρ i).trans hop) htype
  | constant hop => exact .constant ((Instruction.op?_mapIds ρ i).trans hop)
  | @global storage hop hstorage hglobal =>
    refine .global ((Instruction.op?_mapIds ρ i).trans hop) ?_ hglobal
    have hplain : 2 ∉ i.idPositions := by
      simp [Instruction.idPositions, Instruction.nominalIdPositions, hop]
    rw [Instruction.getElem?_operands_mapIds, hstorage, Option.map_some, if_neg hplain]

/-- Everything that is declared stands among the declarations by right. -/
theorem Tallies.isModuleLevel_of_mem {a : Assembly} {h : Inventory} {e : Emission} (he : Tallies a h e)
    (hi : i ∈ e.declared) : i.IsModuleLevel := by
  rw [he.declared] at hi
  obtain ⟨k, d, id, hmem, rfl⟩ := Inventory.exists_of_mem_declarations hi
  have hkind : d.IsType ∨ d.IsConstant ∨ d.IsVariable := by
    cases d <;> simp [Declaration.IsType, Declaration.IsConstant, Declaration.IsVariable]
  rcases hkind with htype | hconstant | hvariable
  · obtain ⟨op, hmem, hop⟩ := Declaration.op?_instruction_of_isType id htype
    exact .type hop hmem
  · exact .constant (Declaration.op?_instruction_of_isConstant id hconstant)
  · have hop := Declaration.op?_instruction_of_isVariable id hvariable
    have hitem : (Item.declared d id).isVariable = true := decide_eq_true hop
    obtain ⟨⟨field, rfl⟩, -⟩ := he.of_isVariable hmem hitem
    -- The construction for a field declares no variable but one with the storage class of the field.
    rw [← Inventory.mem_of] at hmem
    have hexposing : Exposing a field (h.of (.variable field)) := he.belongs (.variable field)
    have hstorage : (d.instruction id).operands[2]? = some (a.storage field).code := by
      generalize h.of (.variable field) = items at hexposing hmem
      cases hexposing with
      | nothing => cases hmem
      | declared pointerType id' =>
        obtain ⟨rfl, rfl⟩ := Item.declared.inj (List.mem_singleton.mp hmem)
        rfl
      | exposed pointerType id' valueType =>
        rcases List.mem_pair.mp hmem with heq | heq
        · obtain ⟨rfl, rfl⟩ := Item.declared.inj heq
          rfl
        · cases heq
    exact .global hop hstorage (a.code_storage_ne field)

end Declarations

/-! ## The outline of a run -/

/-- The outline of what a run has written, under other ids. -/
def Outline.ofRun (ρ : Word → Word) (e : Emission) (ready : List ReadyEntry)
    (annotated declared : List Instruction) (bs : List (FunctionKey × FunctionBlock)) : Outline where
  entries := ready.map (Outline.Entry.ofReady ρ e.interface)
  fields := e.globals.map fun v => (v.field, ρ v.id.raw)
  decorations := annotated.map (Instruction.mapIds ρ)
  declarations := declared.map (Instruction.mapIds ρ)
  functions := bs.map fun b => (b.1, b.2.rename ρ)

section OfRun

variable {a : Assembly} {requested : List EntryPoint} {config : Config} {e : Emission}
  {ready : List ReadyEntry} {m : Module} {ρ : Word → Word} {annotated declared : List Instruction}
  {bs : List (FunctionKey × FunctionBlock)} {g : Function} {h : Inventory}

/-- The outline has the instructions that the run has written. -/
theorem Outline.instructions_ofRun (ρ : Word → Word) (annotated declared : List Instruction)
    (hblocks : List.Forall₂ (Function.IsBlock a h) (Layout.callOrder (ready.map ReadyEntry.function)) bs)
    (hheader : ∀ i ∈ e.header ready, i.Fits) :
    (ofRun ρ e ready annotated declared bs).instructions =
      (e.text ready annotated declared).map (Instruction.mapIds ρ) := by
  have hentries : (ready.map fun r => r.instruction e.interface).map (Instruction.mapIds ρ) =
      (ready.map (Entry.ofReady ρ e.interface)).map Entry.declaration := by
    rw [List.map_map, List.map_map]
    exact List.map_congr_left fun r _ => (declaration_ofReady ρ e.interface r).symm
  have hmodes : (ready.map ReadyEntry.modeInstruction).map (Instruction.mapIds ρ) =
      (ready.map (Entry.ofReady ρ e.interface)).map Entry.modeSetting := by
    rw [List.map_map, List.map_map]
    exact List.map_congr_left fun r _ => (modeSetting_ofReady ρ e.interface r).symm
  have hfunctions : (bs.flatMap fun b => b.2.instructions).map (Instruction.mapIds ρ) =
      (bs.map fun b => (b.1, b.2.rename ρ)).flatMap fun f => f.2.instructions := by
    rw [List.map_flatMap, List.flatMap_map]
    exact List.flatMap_congr fun b _ => (FunctionBlock.instructions_rename b.2).symm
  rw [Emission.text, e.headerSection_eq_flatMap, Instruction.decode_flatMap_encode hheader, Emission.header,
    functionsOf_eq hblocks]
  simp only [List.map_append, hentries, hmodes, hfunctions]
  rfl

/-- A function of a run is in the order of functions, if functions are told apart by their ids.  If not,
there is one of its id. -/
theorem Compiled.exists_mem_callOrder (hcompiled : Compiled a requested config e ready m)
    (hg : g ∈ ready.map ReadyEntry.function ∨
      ∃ f ∈ Layout.callOrder (ready.map ReadyEntry.function), g ∈ f.callees) :
    ∃ g' ∈ Layout.callOrder (ready.map ReadyEntry.function), g'.id = g.id ∧
      (e.ids.issued < UInt32.size → g' = g) := by
  obtain ⟨g', hg', hid⟩ := Layout.exists_mem_callOrder hg
  refine ⟨g', hg', hid, fun hissued => ?_⟩
  obtain ⟨⟨h, hm⟩, -⟩ := hcompiled.materialized hissued
  have hlowered : Lowered a (names h) g := by
    rcases hg with hg | ⟨f, hf, hg⟩
    · exact hm.lowered g hg
    · exact (Lowered.of_mem_callOrder hm.lowered hf).callee hg
  have hsize : (names h).length < UInt32.size := hm.account.issued ▸ hissued
  exact (Lowered.of_mem_callOrder hm.lowered hg').eq_of_id hsize hlowered hid

/-- The outline of a run names the functions of the entry points, and the functions that are called. -/
theorem Compiled.names_ofRun (hcompiled : Compiled a requested config e ready m)
    (hblocks : List.Forall₂ (Function.IsBlock a h) (Layout.callOrder (ready.map ReadyEntry.function)) bs)
    (hg : g ∈ ready.map ReadyEntry.function ∨
      ∃ f ∈ Layout.callOrder (ready.map ReadyEntry.function), g ∈ f.callees) :
    (Outline.ofRun ρ e ready annotated declared bs).Names (e.ids.issued < UInt32.size) g.key
      ⟨ρ g.returnType.raw, ρ g.id.raw⟩ := by
  obtain ⟨g', hg', hid, hsame⟩ := hcompiled.exists_mem_callOrder hg
  obtain ⟨b, hb, hblock⟩ := forall₂_mem_left hblocks hg'
  refine ⟨(b.1, b.2.rename ρ), List.mem_map_of_mem hb, ?_, fun hissued => ?_⟩
  · rw [← hid, ← hblock.id]
    rfl
  · rw [hblock.key, ← hsame hissued, ← hblock.returnType]
    exact ⟨rfl, rfl⟩

/-- The entries of the outline are those that were requested. -/
theorem Compiled.entries_ofRun (hnumbered : a.Numbered) (hcompiled : Compiled a requested config e ready m)
    (hh : Surveyed a (firstAppearances requested) e ready h)
    (hblocks : List.Forall₂ (Function.IsBlock a h) (Layout.callOrder (ready.map ReadyEntry.function)) bs) :
    let o := Outline.ofRun ρ e ready annotated declared bs
    List.Forall₂ (fun entry e' => ∃ method, a.method? entry.method = some method ∧
        e'.model = entry.model.code ∧ entry.model.mode = .ok e'.mode ∧
        (∃ type, o.Names (e.ids.issued < UInt32.size) (FunctionKey.ofMethod method) ⟨type, e'.function⟩) ∧
        (NulFree method.fullName → literalString method.fullName <+: e'.rest))
      (firstAppearances requested) o.entries := by
  have hentries := (List.forall₂_and_left ready _).mpr ⟨fun r hr => hr, (hh.formed hnumbered).flip⟩
  refine List.forall₂_map_right_iff.mpr (hentries.flip.imp fun entry r hentry => ?_)
  obtain ⟨hr, method, f, mode, hmethod, hmode, rfl, hkey, -⟩ := hentry
  have hname := name_isPrefix_ofReady ρ e.interface ⟨entry.model, mode, method.fullName, f⟩
  refine ⟨method, hmethod, rfl, hmode, ⟨ρ f.returnType.raw, ?_⟩, hname⟩
  exact hkey ▸ hcompiled.names_ofRun hblocks (.inl (List.mem_map_of_mem hr))

theorem Spirv.Instruction.ids_variable (type id storage : Word) :
    Instruction.ids ⟨Op.variable.code, [type, id, storage]⟩ = [type, id] :=
  rfl

/-- As long as there are enough ids, the layout gives the variable of a field another one than those of
slots. -/
theorem Surveyed.newId_ne (hh : Surveyed a (firstAppearances requested) e ready h)
    (hissued : e.ids.issued < UInt32.size) {f : Function} {b : FunctionKey × FunctionBlock}
    (hf : f ∈ Layout.callOrder (ready.map ReadyEntry.function)) (hblock : f.IsBlock a h b)
    {v : SlotVariable} (hv : v ∈ b.2.slots) {w : GlobalVariable} (hw : w ∈ e.globals) :
    newId (e.distinctIds ready) v.id ≠ newId (e.distinctIds ready) w.id.raw := by
  obtain ⟨-, -, pointerType, hof⟩ := hh.tallies.of_exposed (hh.tallies.exists_of_mem_globals hw)
  have hdeclared := Inventory.mem_of.mp (hof ▸ List.mem_cons_self)
  have hglobal : w.id.raw ∈ Layout.idsOf (e.text ready e.annotated e.declared) := by
    have hmem := Inventory.mem_declarations hdeclared
    have hsame : e.declared = h.declarations := hh.tallies.declared
    rw [← hsame] at hmem
    refine mem_idsOf_of_mem (List.mem_append_left _ (List.mem_append_right _ hmem)) ?_
    rw [Declaration.instruction, Instruction.ids_variable]
    exact List.mem_cons_of_mem _ List.mem_cons_self
  have hslot : v.id ∈ Layout.idsOf (e.text ready e.annotated e.declared) := by
    have hmem := FunctionBlock.mem_instructions_of_slot hv
    rw [← hblock.decoded] at hmem
    have hfunctions := List.mem_flatMap.mpr ⟨f.body, List.mem_map_of_mem hf, hmem⟩
    refine mem_idsOf_of_mem (List.mem_append_right _ hfunctions) ?_
    rw [Instruction.ids_variable]
    exact List.mem_cons_of_mem _ List.mem_cons_self
  intro heq
  -- One id would have been both taken and declared.
  obtain ⟨id, ⟨k, htaken⟩, hid⟩ := hblock.taken v hv
  have hascends : h.Ascends := hh.tallies.ascending hissued
  have hraw := e.newId_injOn_text ready hslot hglobal heq
  cases hascends.note_eq htaken hdeclared rfl rfl (hid.trans hraw)

/-- What a function of the run refers to is there in the outline, under its new ids. -/
theorem Compiled.referents_renamed (hcompiled : Compiled a requested config e ready m)
    (hh : Surveyed a (firstAppearances requested) e ready h) (hdeclared : declared.Perm e.declared)
    (hblocks : List.Forall₂ (Function.IsBlock a h) (Layout.callOrder (ready.map ReadyEntry.function)) bs)
    {f : Function} (hf : f ∈ Layout.callOrder (ready.map ReadyEntry.function))
    {b : FunctionKey × FunctionBlock} (hblock : f.IsBlock a h b) :
    let ρ := newId (e.distinctIds ready)
    (h.referents f.callees).Renamed ρ
      ((Outline.ofRun ρ e ready annotated declared bs).referents (e.ids.issued < UInt32.size)
        (b.2.rename ρ)) where
  declares i hi := List.mem_map_of_mem (hdeclared.mem_iff.mpr (hh.tallies.declared ▸ hi))
  field := by
    rintro field _ ⟨v, hv, rfl⟩
    have hglobal := hh.tallies.mem_globals hv
    obtain rfl := Key.variable.inj (hh.tallies.of_exposed hv).1
    refine ⟨List.mem_map_of_mem hglobal, fun hissued => List.forall_mem_map.mpr fun s hs => ?_⟩
    exact hh.newId_ne hissued hf hblock hs hglobal
  function := by
    rintro _ ⟨_, _⟩ ⟨g, hg, rfl, rfl, rfl⟩
    exact hcompiled.names_ofRun hblocks (.inr ⟨f, hf, hg⟩)

/-- The functions of the outline implement the methods of their keys. -/
theorem Compiled.functions_ofRun (hcompiled : Compiled a requested config e ready m)
    (hh : Surveyed a (firstAppearances requested) e ready h) (hdeclared : declared.Perm e.declared)
    (hblocks : List.Forall₂ (Function.IsBlock a h) (Layout.callOrder (ready.map ReadyEntry.function)) bs) :
    let o := Outline.ofRun (newId (e.distinctIds ready)) e ready annotated declared bs
    ∀ f ∈ o.functions, ∃ p,
      f.2.Implements a (o.referents (e.ids.issued < UInt32.size) f.2) f.1 p := by
  intro o f hf
  obtain ⟨b, hb, rfl⟩ := List.mem_map.mp hf
  obtain ⟨f, hf, hblock⟩ := forall₂_mem_left hblocks.flip hb
  obtain ⟨p, himplements⟩ := hblock.implements
  exact ⟨p, hblock.key ▸ himplements.rename (hcompiled.referents_renamed hh hdeclared hblocks hf hblock)⟩

/-- The functions of a run are blocks. -/
theorem Surveyed.exists_blocks (hnumbered : a.Numbered)
    (hh : Surveyed a (firstAppearances requested) e ready h) (hfits : e.InstructionsFit ready) :
    ∃ bs, List.Forall₂ (Function.IsBlock a h) (Layout.callOrder (ready.map ReadyEntry.function)) bs := by
  refine exists_forall₂ fun f hf => ?_
  obtain ⟨hwritten, hcalls⟩ := hh.written_of_mem_callOrder hfits hf
  obtain ⟨_, hroot, hbelow⟩ := Layout.below_of_mem_callOrderFrom hf
  obtain ⟨r, hr, rfl⟩ := List.mem_map.mp hroot
  obtain ⟨_, -, _, _, _, -, -, rfl, -, hformed⟩ := forall₂_mem_left (hh.formed hnumbered).flip hr
  exact (hformed.of_below hbelow).exists_block hwritten hcalls

/-- The words of a module are those of the outline of its run, and the decoder finds its instructions. -/
theorem Outline.exists_module_eq_ofRun
    (hblocks : List.Forall₂ (Function.IsBlock a h) (Layout.callOrder (ready.map ReadyEntry.function)) bs)
    (hfits : e.InstructionsFit ready) (hannotated : Instruction.decode e.annotations = e.annotated)
    (config : Config) : ∃ annotated declared, annotated.Perm e.annotated ∧ declared.Perm e.declared ∧
      let o := ofRun (newId (e.distinctIds ready)) e ready annotated declared bs
      let m := e.module config ready
      o.decorations.Pairwise Layout.Precedes ∧
      m = .ofWords (magic :: config.version :: config.generator :: m.bound :: 0 ::
        o.instructions.flatMap Instruction.encode) ∧
      m.instructions = o.instructions := by
  have hdeclared : Instruction.decode e.declarations = e.declared :=
    Instruction.decode_flatMap_encode hfits.declarations
  obtain ⟨annotated, declared, bound, hannotations, hdeclarations, hascending, hmodule⟩ :=
    e.exists_module_eq config ready hdeclared hannotated
  have hinstructions := instructions_ofRun (newId (e.distinctIds ready)) annotated declared hblocks
    (Emission.header_fits hfits.entries)
  refine ⟨annotated, declared, hannotations, hdeclarations, hascending, ?_, ?_⟩
  · have hbound : (e.module config ready).bound = bound := by
      rw [Module.bound, hmodule, Module.words_ofWords]
      rfl
    rw [hbound, hinstructions]
    exact hmodule
  · rw [Module.instructions, hmodule, Module.words_ofWords, hinstructions]
    -- Renaming changes no length, so what fitted before the layout fits after it.
    refine Instruction.decode_flatMap_encode fun i hi => ?_
    obtain ⟨j, hj, rfl⟩ := List.mem_map.mp hi
    refine Instruction.fits_mapIds.mpr (Emission.text_fits (fun k hk => ?_) (fun k hk => ?_) j hj)
    · exact hannotated ▸ hannotations.mem_iff.mp hk
    · exact hdeclared ▸ hdeclarations.mem_iff.mp hk

/-- Every module that is compiled within the format follows the grammar of sections. -/
theorem compiled_outlines (hbuilt : a.Built) (hcompiled : Compiled a requested config e ready m)
    (hfits : e.InstructionsFit ready) :
    ∃ o, Outlines a requested config (e.ids.issued < UInt32.size) m o := by
  -- Two views of one run: what it has looked up, and which construction wrote which line.
  obtain ⟨⟨h, hh⟩, rfl⟩ := hcompiled.surveyed hbuilt.numbered
  obtain ⟨state?, harises, -⟩ := hcompiled.exists_arises
  obtain ⟨w, hattributed⟩ := harises.attributed
  obtain ⟨bs, hblocks⟩ := hh.exists_blocks hbuilt.numbered hfits
  obtain ⟨annotated, declared, hannotated, hdeclared, hascending, hwords, hdecoded⟩ :=
    Outline.exists_module_eq_ofRun hblocks hfits hattributed.decode_annotations config
  refine ⟨_, hwords, hdecoded, ?entries, ?fields, ?annotations, hascending, ?declarations, ?functions⟩
  case entries => exact hcompiled.entries_ofRun hbuilt.numbered hh hblocks
  case fields =>
    rw [Outline.ofRun, List.map_map]
    exact hh.nodup_fields
  case annotations =>
    intro i hi
    obtain ⟨j, hj, rfl⟩ := List.mem_map.mp hi
    rw [Instruction.op?_mapIds]
    exact hattributed.op?_of_mem_annotated (hannotated.mem_iff.mp hj)
  case declarations =>
    intro i hi
    obtain ⟨j, hj, rfl⟩ := List.mem_map.mp hi
    exact (hh.tallies.isModuleLevel_of_mem (hdeclared.mem_iff.mp hj)).mapIds _
  case functions => exact hcompiled.functions_ofRun hh hdeclared hblocks

end OfRun

/-- The module of the painter, whose entry point calls another function, has an outline. -/
theorem painter_outlines : painter.Built ∧
    Compiled painter painterEntries .standard painterSession.shared painterReady painterModule ∧
    painterSession.shared.InstructionsFit painterReady ∧ painterSession.shared.ids.issued < UInt32.size ∧
    ∃ o, Outlines painter painterEntries .standard (painterSession.shared.ids.issued < UInt32.size)
      painterModule o := by
  have hids : painterSession.shared.ids.issued + 1 < UInt32.size := painter_inFormat.ids
  refine ⟨painter_built, painter_compiled, painter_instructionsFit, by omega, ?_⟩
  exact compiled_outlines painter_built painter_compiled painter_instructionsFit

end ShaderLowering
