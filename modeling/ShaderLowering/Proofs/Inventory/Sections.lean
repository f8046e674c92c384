import ShaderLowering.Proofs.Inventory.Bodies
import ShaderLowering.Proofs.Modules.Typing
import ShaderLowering.Proofs.Writings.Silent

/-!
# The declarations of a run are well founded

At any time of any run the declarations that have been written are in the order of their results, and each
of them refers to types before it (`Founded`).  What is ready refers to them by ids that are the result
of exactly one of them, and so do the words of functions, apart from what they define themselves and from
what they call (`BodyBacked`).  That is read off the inventory (`Tallies.founded`,
`Stocked.backed`), so it does not matter which requests have failed on the way, nor when.

Whoever asks for a shape or a constant says by ids which types are meant.  A run cannot know where the ids
come from; it is up to its clients to ask for types that are ready (`Honest`).
-/

namespace ShaderLowering

open Construction
open Spirv

/-! ## What the statement speaks of -/

namespace Spirv

/-- Exactly one of some instructions has a word for its result, and its opcode is one of a few. -/
def DefinesOnce (types : List Instruction) (ops : List Op) (w : Word) : Prop :=
  ∃ i, types.filter (fun i => i.defines? = some w) = [i] ∧ ∃ op ∈ ops, i.op? = some op

/-- The opcodes by which types are declared. -/
def typeOps : List Op :=
  [.typeVoid, .typeInt, .typeFloat, .typeVector, .typeStruct, .typePointer, .typeFunction]

/-- Declarations have ascending results, and refer to types that are declared before. -/
structure Founded (types : List Instruction) : Prop where
  results : ∀ i ∈ types, i.defines?.isSome
  ascending : (resultsOf types).Pairwise (· < ·)
  earlier : ∀ before i after, types = before ++ i :: after → ∀ w ∈ i.uses,
    ∃ t ∈ before, t.defines? = some w ∧ ∃ op ∈ typeOps, t.op? = some op

/-- The operands of an instruction of a function that say what types there are. -/
def Instruction.typeOperands (i : Instruction) : List Word :=
  i.type?.toList ++ if i.op? = some .function then i.operands[3]?.toList else []

end Spirv

/-- What the words of a function refer to is declared once, if it is not defined in the function itself nor
one of its callees; and neither of these is declared. -/
structure BodyBacked (types : List Instruction) (f : Function) : Prop where
  typed : ∀ i ∈ Instruction.decode f.body, ∀ w ∈ i.typeOperands, DefinesOnce types typeOps w
  values : ∀ i ∈ Instruction.decode f.body, ∀ w ∈ i.uses, w ∈ i.typeOperands ∨
    w ∈ resultsOf (Instruction.decode f.body) ∨ (∃ g ∈ f.callees, g.id.raw = w) ∨
      DefinesOnce types [.constant, .variable] w
  own : ∀ w ∈ resultsOf (Instruction.decode f.body), w ∉ resultsOf types
  callees : ∀ g ∈ f.callees, g.id.raw ∉ resultsOf types

/-- What is ready refers to declarations, each of which is there once. -/
structure Backed (types : List Instruction) (ready? : (k : Key) → Option k.Value) : Prop where
  type : ∀ id i, ready? (.type id) = some i → DefinesOnce types typeOps i.raw
  shape : ∀ s i, ready? (.shape s) = some i → DefinesOnce types typeOps i.raw
  constant : ∀ type bits i, ready? (.constant type bits) = some i → DefinesOnce types [.constant] i.raw
  global : ∀ field v, ready? (.variable field) = some v →
    DefinesOnce types [.variable] v.id.raw ∧ DefinesOnce types typeOps v.valueType.raw
  function : ∀ key f, ready? (.function key) = some f → DefinesOnce types typeOps f.returnType.raw ∧
    f.id.raw ∉ resultsOf types ∧ ∀ g, f.Below g → BodyBacked types g

/-- The types that are ready. -/
def Construction.World.typeIds (w : World lowering Emission) : List Id :=
  w.cells.keys.filterMap fun
    | .type id => w.ready? (.type id)
    | .shape s => w.ready? (.shape s)
    | _ => none

/-- Under a schedule, threads ask for shapes and constants on their own account only if the types that
these are made of are ready when they ask. -/
def Honest {α : Type} (a : Assembly) (m : Machine lowering Emission α) (schedule : List ThreadId) : Prop :=
  ∀ before t, before ++ [t] <+: schedule → ∀ k, (m.follow (recipes a) before).asking? t = some k →
    ∀ i ∈ k.components, i ∈ (m.follow (recipes a) before).world.typeIds

/-- What a run may have come to: clients that only ask for what they have been given the types of, or
workers that construct entry points. -/
inductive Consulted (a : Assembly) : World lowering Emission → Prop
  | clients (requests : List (List Request)) (schedule : List ThreadId)
      (hhonest : Honest a (Clients.start a requests) schedule) :
      Consulted a ((Clients.start a requests).follow a schedule).world
  | workers (dealt : List (List EntryPoint)) (schedule : List ThreadId) :
      Consulted a ((WorkerPool.start a dealt).follow a schedule).world

/-! ## Results and uses of instructions -/

namespace Spirv.Instruction

theorem mem_uses {i : Instruction} {w : Word} : w ∈ i.uses ↔
    ∃ position ∈ i.idPositions, i.resultPosition? ≠ some position ∧ i.operands[position]? = some w := by
  simp [uses, List.mem_filterMap, List.mem_filter, and_assoc]

end Spirv.Instruction

namespace Declaration

variable (d : Declaration) (id : Id)

theorem defines?_instruction : (d.instruction id).defines? = some id.raw := by
  cases d with
  | shape s => cases s <;> rfl
  | _ => rfl

/-- What a declaration refers to are its components. -/
theorem mem_components_of_mem_uses {w : Word} (hw : w ∈ (d.instruction id).uses) :
    ∃ i ∈ d.components, i.raw = w := by
  obtain ⟨position, hposition, hne, hoperand⟩ := Instruction.mem_uses.mp hw
  have hnominal := (List.mem_filter.mp hposition).1
  -- Where all operands are ids, the result comes first.
  have hrest : ∀ {ids : List Id}, position ≠ 0 → (id.raw :: ids.map Id.raw)[position]? = some w →
      ∃ i ∈ ids, i.raw = w := fun hpos hget => by
    obtain ⟨n, rfl⟩ := Nat.exists_eq_succ_of_ne_zero hpos
    exact List.mem_map.mp (List.mem_of_getElem? hget)
  cases d with
  | struct members => exact hrest (fun heq => hne (congrArg some heq.symm)) hoperand
  | constant type bits =>
    have hpositions : position ∈ [0, 1] := hnominal
    rcases List.mem_pair.mp hpositions with rfl | rfl
    · exact ⟨type, List.mem_singleton_self _, Option.some.inj hoperand⟩
    · exact absurd rfl hne
  | «variable» pointerType storage =>
    have hpositions : position ∈ [0, 1] := hnominal
    rcases List.mem_pair.mp hpositions with rfl | rfl
    · exact ⟨pointerType, List.mem_singleton_self _, Option.some.inj hoperand⟩
    · exact absurd rfl hne
  | shape s =>
    cases s with
    | void | int width signed | float width =>
      have hpositions : position ∈ [0] := hnominal
      obtain rfl := List.mem_singleton.mp hpositions
      exact absurd rfl hne
    | vector element size =>
      have hpositions : position ∈ [0, 1] := hnominal
      rcases List.mem_pair.mp hpositions with rfl | rfl
      · exact absurd rfl hne
      · exact ⟨element, List.mem_singleton_self _, Option.some.inj hoperand⟩
    | pointer storage pointee =>
      have hpositions : position ∈ [0, 2] := hnominal
      rcases List.mem_pair.mp hpositions with rfl | rfl
      · exact absurd rfl hne
      · exact ⟨pointee, List.mem_singleton_self _, Option.some.inj hoperand⟩
    | function returnType parameters =>
      exact hrest (fun heq => hne (congrArg some heq.symm)) hoperand

/-- The opcodes of declarations of types are those that types have. -/
theorem op?_instruction_of_isType {d : Declaration} (hd : d.IsType) :
    ∃ op ∈ typeOps, (d.instruction id).op? = some op := by
  cases d with
  | struct members => exact ⟨.typeStruct, by decide, rfl⟩
  | shape s => cases s <;> exact ⟨_, by decide, rfl⟩
  | constant type bits => exact hd.elim
  | «variable» pointerType storage => exact hd.elim

theorem op?_instruction_of_isConstant {d : Declaration} (hd : d.IsConstant) :
    (d.instruction id).op? = some .constant := by
  cases d with
  | constant type bits => rfl
  | _ => exact hd.elim

theorem op?_instruction_of_isVariable {d : Declaration} (hd : d.IsVariable) :
    (d.instruction id).op? = some .variable := by
  cases d with
  | «variable» pointerType storage => rfl
  | _ => exact hd.elim

end Declaration

theorem mem_resultsOf {is : List Instruction} {w : Word} :
    w ∈ resultsOf is ↔ ∃ i ∈ is, i.defines? = some w :=
  List.mem_filterMap

/-- Among instructions with different results there is one for each. -/
theorem filter_defines?_eq {is : List Instruction} {i : Instruction} {w : Word}
    (hnodup : (resultsOf is).Nodup) (hi : i ∈ is) (hw : i.defines? = some w) :
    is.filter (fun i => i.defines? = some w) = [i] := by
  obtain ⟨before, after, rfl⟩ := List.append_of_mem hi
  rw [resultsOf, List.filterMap_append, List.filterMap_cons_some hw, List.nodup_append] at hnodup
  obtain ⟨-, hlast, hapart⟩ := hnodup
  have hbefore : ∀ j ∈ before, ¬decide (j.defines? = some w) = true := fun j hj hsame =>
    hapart w (mem_resultsOf.mpr ⟨j, hj, of_decide_eq_true hsame⟩) w List.mem_cons_self rfl
  have hafter : ∀ j ∈ after, ¬decide (j.defines? = some w) = true := fun j hj hsame =>
    (List.nodup_cons.mp hlast).1 (mem_resultsOf.mpr ⟨j, hj, of_decide_eq_true hsame⟩)
  rw [List.filter_append, List.filter_eq_nil_iff.mpr hbefore, List.filter_cons, decide_eq_true hw,
    if_pos rfl, List.filter_eq_nil_iff.mpr hafter, List.nil_append]

/-! ## Declarations of an inventory -/

namespace Inventory

variable {h : Inventory} {k : Key} {d : Declaration} {id : Id}

/-- The ids of the inventory ascend. -/
abbrev Ascends (h : Inventory) : Prop :=
  h.ids.Pairwise fun i j => i.raw < j.raw

theorem exists_of_mem_declarations {i : Instruction} (hi : i ∈ h.declarations) :
    ∃ k d id, (k, .declared d id) ∈ h ∧ i = d.instruction id := by
  obtain ⟨⟨k, item⟩, hmem, hitem⟩ := List.mem_filterMap.mp hi
  cases item with
  | declared d id => exact ⟨k, d, id, hmem, (Option.some.inj hitem).symm⟩
  | taken id => cases hitem
  | exposed g => cases hitem

theorem exists_of_mem_resultsOf {w : Word} (hw : w ∈ resultsOf h.declarations) :
    ∃ k d id, (k, .declared d id) ∈ h ∧ id.raw = w := by
  obtain ⟨i, hi, hresult⟩ := mem_resultsOf.mp hw
  obtain ⟨k, d, id, hmem, rfl⟩ := exists_of_mem_declarations hi
  rw [d.defines?_instruction] at hresult
  exact ⟨k, d, id, hmem, Option.some.inj hresult⟩

/-- The results of declarations are ids of the inventory in their order. -/
theorem resultsOf_declarations_sublist (h : Inventory) :
    (resultsOf h.declarations).Sublist (h.ids.map Id.raw) := by
  have hids : h.ids.map Id.raw = h.filterMap fun note => note.2.id?.map Id.raw := by
    rw [ids, List.map_filterMap]
  have hresults : resultsOf h.declarations =
      (h.filter fun note => note.2.instruction?.isSome).filterMap fun note => note.2.id?.map Id.raw := by
    rw [resultsOf, declarations, List.filterMap_filterMap, List.filterMap_filter]
    refine List.filterMap_congr fun note _ => ?_
    cases note.2 with
    | declared d id => exact d.defines?_instruction id
    | taken id => rfl
    | exposed g => rfl
  rw [hids, hresults]
  exact List.filter_sublist.filterMap _

namespace Ascends

variable (hascends : h.Ascends)

include hascends

theorem resultsOf : (resultsOf h.declarations).Pairwise (· < ·) :=
  (List.pairwise_map.mpr hascends).sublist h.resultsOf_declarations_sublist

/-- An id is issued for one thing. -/
theorem note_eq {note note' : Key × Item} {j : Id} (hmem : note ∈ h) (hmem' : note' ∈ h)
    (hid : note.2.id? = some id) (hid' : note'.2.id? = some j) (heq : id.raw = j.raw) :
    note = note' := by
  by_contra hne
  have hapart : h.Pairwise fun n n' => ∀ i, n.2.id? = some i → ∀ j, n'.2.id? = some j → i.raw ≠ j.raw :=
    (List.pairwise_filterMap.mp hascends).imp fun hlt i hi j hj => UInt32.ne_of_lt (hlt i hi j hj)
  have hsymm : Std.Symm fun n n' : Key × Item => ∀ i, n.2.id? = some i → ∀ j, n'.2.id? = some j →
      i.raw ≠ j.raw := ⟨fun _ _ hn i hi j hj => (hn j hj i hi).symm⟩
  exact hapart.forall hmem hmem' hne _ hid _ hid' heq

theorem definesOnce {kind : Declaration → Prop} {ops : List Op} (hid : h.Declares kind id)
    (hops : ∀ d, kind d → ∃ op ∈ ops, (d.instruction id).op? = some op) :
    DefinesOnce h.declarations ops id.raw := by
  obtain ⟨k, d, hmem, hkind⟩ := hid
  have hnodup : (ShaderLowering.resultsOf h.declarations).Nodup :=
    hascends.resultsOf.imp UInt32.ne_of_lt
  exact ⟨d.instruction id, filter_defines?_eq hnodup (mem_declarations hmem)
    (d.defines?_instruction id), hops d hkind⟩

theorem definesOnce_type (hid : h.Types id) : DefinesOnce h.declarations typeOps id.raw :=
  hascends.definesOnce hid fun _ hd => Declaration.op?_instruction_of_isType id hd

theorem definesOnce_constant (hid : h.Constants id) : DefinesOnce h.declarations [.constant] id.raw :=
  hascends.definesOnce hid fun _ hd =>
    ⟨_, List.mem_singleton_self _, Declaration.op?_instruction_of_isConstant id hd⟩

theorem definesOnce_variable (hid : h.Variables id) : DefinesOnce h.declarations [.variable] id.raw :=
  hascends.definesOnce hid fun _ hd =>
    ⟨_, List.mem_singleton_self _, Declaration.op?_instruction_of_isVariable id hd⟩

/-- What is taken inside a function is not declared. -/
theorem not_mem_resultsOf (hid : h.Taken id) : id.raw ∉ ShaderLowering.resultsOf h.declarations := by
  intro hmem
  obtain ⟨k, htaken⟩ := hid
  obtain ⟨k', d, j, hdeclared, heq⟩ := exists_of_mem_resultsOf hmem
  cases hascends.note_eq htaken hdeclared rfl rfl heq.symm

end Ascends

end Inventory

theorem Spirv.DefinesOnce.mono {types : List Instruction} {ops ops' : List Op} {w : Word}
    (hw : DefinesOnce types ops w) (hsubset : ops ⊆ ops') : DefinesOnce types ops' w := by
  obtain ⟨i, hi, op, hop, hcode⟩ := hw
  exact ⟨i, hi, op, hsubset hop, hcode⟩

/-! ## Declarations refer to types before them -/

/-- What has been written at any time is well founded. -/
theorem Tallies.founded {a : Assembly} {h : Inventory} {e : Emission}
    (he : Tallies a h e) (hids : e.ids.issued < UInt32.size) : Founded h.declarations where
  results i hi := by
    obtain ⟨-, d, id, -, rfl⟩ := Inventory.exists_of_mem_declarations hi
    rw [d.defines?_instruction]
    rfl
  ascending := Inventory.Ascends.resultsOf (he.ascending hids)
  earlier before i after hsplit w hw := by
    -- The declarations before this one come from the items before it.
    obtain ⟨h₁, h₂, rfl, rfl, hrest⟩ := List.filterMap_eq_append_iff.mp hsplit
    obtain ⟨h₃, ⟨k, item⟩, h₄, rfl, hnone, hitem, -⟩ := List.filterMap_eq_cons_iff.mp hrest
    cases item with
    | taken id => cases hitem
    | exposed g => cases hitem
    | declared d id =>
      obtain rfl := Option.some.inj hitem
      -- What a declaration uses is one of the ids that it is made of, and those were declared before it.
      obtain ⟨j, hj, rfl⟩ := d.mem_components_of_mem_uses id hw
      have hbegins : (h₁ ++ h₃) ++ [(k, .declared d id)] <+: h₁ ++ (h₃ ++ (k, .declared d id) :: h₄) :=
        ⟨h₄, by simp⟩
      obtain ⟨k', d', hmem, hkind⟩ := he.grounded _ k d id hbegins j hj
      have hmem' := Inventory.mem_declarations hmem
      rw [Inventory.declarations, List.filterMap_append, List.filterMap_eq_nil_iff.mpr hnone,
        List.append_nil] at hmem'
      exact ⟨_, hmem', d'.defines?_instruction j, Declaration.op?_instruction_of_isType j hkind⟩

/-! ## Functions refer to declarations -/

namespace Sourced

variable {h : Inventory} {here : List Word} {callees : List Function} {i : Instruction}

theorem fits (hi : Sourced h here callees i)
    (hcalls : ∀ g ∈ callees, g.key.parameters.length + 4 < UInt16.size) : i.Fits := by
  cases hi with
  | call hf hreturn hid hlength harguments =>
    have hcall := hcalls _ hf
    simp only [Instruction.Fits, List.length_cons, List.length_map, hlength]
    omega
  | _ => simp [Instruction.Fits, UInt16.size]

/-- What an instruction of a function defines is an id of the function. -/
theorem taken_of_defines? {w : Word} (hi : Sourced h here callees i) (hw : i.defines? = some w) :
    ∃ id, h.Taken id ∧ id.raw = w := by
  cases hi with
  | store | ret | returnValue | functionEnd => cases hw
  | function hreturn hid hfunction => exact ⟨_, hid, Option.some.inj hw⟩
  | parameter htype hid => exact ⟨_, hid, Option.some.inj hw⟩
  | label hid => exact ⟨_, hid, Option.some.inj hw⟩
  | slot htype hid => exact ⟨_, hid, Option.some.inj hw⟩
  | load htype hid hpointer => exact ⟨_, hid, Option.some.inj hw⟩
  | call hf hreturn hid hlength harguments => exact ⟨_, hid, Option.some.inj hw⟩

theorem types_of_mem_typeOperands {w : Word} (hi : Sourced h here callees i)
    (hw : w ∈ i.typeOperands) : ∃ id, h.Types id ∧ id.raw = w := by
  cases hi with
  | label | store | ret | returnValue | functionEnd => cases hw
  | function hreturn hid hfunction =>
    rcases List.mem_pair.mp hw with rfl | rfl
    · exact ⟨_, hreturn, rfl⟩
    · exact ⟨_, hfunction, rfl⟩
  | parameter htype hid => exact ⟨_, htype, (List.mem_singleton.mp hw).symm⟩
  | slot htype hid => exact ⟨_, htype, (List.mem_singleton.mp hw).symm⟩
  | load htype hid hpointer => exact ⟨_, htype, (List.mem_singleton.mp hw).symm⟩
  | call hf hreturn hid hlength harguments => exact ⟨_, hreturn, (List.mem_singleton.mp hw).symm⟩

/-- What an instruction of a function refers to is a type, something that can be used, or a callee. -/
theorem usable_of_mem_uses {w : Word} (hi : Sourced h here callees i) (hw : w ∈ i.uses) :
    w ∈ i.typeOperands ∨ (∃ id, Usable h here id ∧ id.raw = w) ∨ ∃ g ∈ callees, g.id.raw = w := by
  -- In each case the operands that are ids are gone through; the result is no use.
  obtain ⟨position, hposition, hne, hoperand⟩ := Instruction.mem_uses.mp hw
  have hnominal := (List.mem_filter.mp hposition).1
  cases hi with
  | function hreturn hid hfunction =>
    have hpositions : position ∈ [0, 1, 3] := hnominal
    simp only [List.mem_cons, List.not_mem_nil, or_false] at hpositions
    rcases hpositions with rfl | rfl | rfl
    · exact .inl (Option.some.inj hoperand ▸ List.mem_cons_self)
    · exact absurd rfl hne
    · exact .inl (Option.some.inj hoperand ▸ List.mem_cons_of_mem _ List.mem_cons_self)
  | parameter htype hid | slot htype hid =>
    have hpositions : position ∈ [0, 1] := hnominal
    rcases List.mem_pair.mp hpositions with rfl | rfl
    · exact .inl (Option.some.inj hoperand ▸ List.mem_cons_self)
    · exact absurd rfl hne
  | label hid =>
    have hpositions : position ∈ [0] := hnominal
    obtain rfl := List.mem_singleton.mp hpositions
    exact absurd rfl hne
  | load htype hid hpointer =>
    have hpositions : position ∈ [0, 1, 2] := hnominal
    simp only [List.mem_cons, List.not_mem_nil, or_false] at hpositions
    rcases hpositions with rfl | rfl | rfl
    · exact .inl (Option.some.inj hoperand ▸ List.mem_cons_self)
    · exact absurd rfl hne
    · exact .inr (.inl ⟨_, hpointer, Option.some.inj hoperand⟩)
  | store hpointer hvalue =>
    have hpositions : position ∈ [0, 1] := hnominal
    rcases List.mem_pair.mp hpositions with rfl | rfl
    · exact .inr (.inl ⟨_, hpointer, Option.some.inj hoperand⟩)
    · exact .inr (.inl ⟨_, hvalue, Option.some.inj hoperand⟩)
  | call hf hreturn hid hlength harguments =>
    rcases position with _ | _ | _ | position
    · exact .inl (Option.some.inj hoperand ▸ List.mem_cons_self)
    · exact absurd rfl hne
    · exact .inr (.inr ⟨_, hf, Option.some.inj hoperand⟩)
    · obtain ⟨argument, hargument, hraw⟩ := List.mem_map.mp (List.mem_of_getElem? hoperand)
      exact .inr (.inl ⟨argument, harguments argument hargument, hraw⟩)
  | ret | functionEnd => cases hnominal
  | returnValue hvalue =>
    have hpositions : position ∈ [0] := hnominal
    obtain rfl := List.mem_singleton.mp hpositions
    exact .inr (.inl ⟨_, hvalue, Option.some.inj hoperand⟩)

end Sourced

namespace Written

variable {h : Inventory} {f g : Function}

theorem of_below (hf : Written h f) (hbelow : f.Below g) : Written h g := by
  induction hbelow with
  | refl => exact hf
  | tail _ hg ih =>
    cases ih with
    | intro first rest hid hreturn hfirst hbody hsourced hcallees => exact hcallees _ hg

theorem id_taken (hf : Written h f) : h.Taken f.id := by
  cases hf
  assumption

theorem returnType_types (hf : Written h f) : h.Types f.returnType := by
  cases hf
  assumption

/-- The words of a function are sourced instructions. -/
theorem sourced (hf : Written h f) (hcalls : f.CallsFit) : ∀ i ∈ Instruction.decode f.body,
    Sourced h (resultsOf (Instruction.decode f.body)) f.callees i := by
  cases hf with
  | intro first rest hid hreturn hfirst hbody hsourced hcallees =>
    rw [hbody, Instruction.decode_flatMap_encode fun i hi => (hsourced i hi).fits hcalls]
    exact hsourced

/-- What the words of a function refer to has been declared. -/
theorem backed (hf : Written h f) (hcalls : f.CallsFit) (hascends : h.Ascends) :
    BodyBacked h.declarations f where
  typed i hi w hw := by
    obtain ⟨id, hid, rfl⟩ := (hf.sourced hcalls i hi).types_of_mem_typeOperands hw
    exact hascends.definesOnce_type hid
  values i hi w hw := by
    rcases (hf.sourced hcalls i hi).usable_of_mem_uses hw with htype | ⟨id, hid, rfl⟩ | hcallee
    · exact .inl htype
    · rcases hid with hhere | hconstant | hvariable
      · exact .inr (.inl hhere)
      · exact .inr (.inr (.inr ((hascends.definesOnce_constant hconstant).mono (by simp))))
      · exact .inr (.inr (.inr ((hascends.definesOnce_variable hvariable).mono (by simp))))
    · exact .inr (.inr (.inl hcallee))
  own w hw := by
    obtain ⟨i, hi, hresult⟩ := mem_resultsOf.mp hw
    obtain ⟨id, hid, rfl⟩ := (hf.sourced hcalls i hi).taken_of_defines? hresult
    exact hascends.not_mem_resultsOf hid
  callees g hg := hascends.not_mem_resultsOf (hf.of_below (.single hg)).id_taken

end Written

/-! ## Runs -/

section Runs

variable {a : Assembly} {α : Type}

theorem Construction.World.typeIds_ready {w : World lowering Emission} {i : Id} (hi : i ∈ w.typeIds) :
    (∃ id, w.ready? (.type id) = some i) ∨ ∃ s, w.ready? (.shape s) = some i := by
  obtain ⟨k, -, hk⟩ := List.mem_filterMap.mp hi
  cases k with
  | type id => exact .inl ⟨id, hk⟩
  | shape s => exact .inr ⟨s, hk⟩
  | constant type bits => cases hk
  | «variable» field => cases hk
  | function key => cases hk

/-- A run under the discipline of the inventory. -/
abbrev Stocked (a : Assembly) (trusted : Prop) (m : Machine lowering Emission α) (h : Inventory) : Prop :=
  (inventory a trusted).Governed (fun _ _ _ => True) m h

namespace Stocked

variable {trusted : Prop} {m : Machine lowering Emission α} {h : Inventory}

/-- What is ready is in the inventory. -/
theorem shown (hm : Stocked a trusted m h) {k : Key} {v : k.Value} (hv : m.world.ready? k = some v) :
    Shown a h k v :=
  hm.ready k v (World.ready?_eq_some.mp hv)

theorem types_of_mem_typeIds (hm : Stocked a trusted m h) {i : Id} (hi : i ∈ m.world.typeIds) :
    h.Types i := by
  rcases World.typeIds_ready hi with ⟨id, hid⟩ | ⟨s, hs⟩
  · exact (hm.shown hid).had
  · exact (hm.shown hs).had

/-- What is ready has been declared once. -/
theorem backed (hm : Stocked a trusted m h) (hids : m.world.shared.ids.issued < UInt32.size)
    (hcalls : ∀ key f, m.world.ready? (.function key) = some f → ∀ g, f.Below g → g.CallsFit) :
    Backed h.declarations m.world.ready? :=
  have hascends : h.Ascends := hm.inv.ascending hids
  { type := fun _ _ hi => hascends.definesOnce_type (hm.shown hi).had
    shape := fun _ _ hi => hascends.definesOnce_type (hm.shown hi).had
    constant := fun _ _ _ hi => hascends.definesOnce_constant (hm.shown hi).had
    global := fun _ _ hv => ⟨hascends.definesOnce_variable (hm.shown hv).had.2,
      hascends.definesOnce_type (hm.shown hv).had.1⟩
    function := fun key f hf =>
      have hwritten : Written h f := (hm.shown hf).had.2
      ⟨hascends.definesOnce_type hwritten.returnType_types,
        hascends.not_mem_resultsOf hwritten.id_taken,
        fun g hbelow => (hwritten.of_below hbelow).backed (hcalls key f hf g hbelow) hascends⟩ }

end Stocked

/-- A task that writes nothing is safe, if what it asks for is known. -/
theorem safe_of_silent {trusted : Prop} {asks : Key → Prop} {h : Inventory} {t : Construct α}
    (ht : Task.Confined (I := lowering) (· = .freshId) asks t)
    (hasks : ∀ k, asks k → ∀ h, (inventory a trusted).Vouched .top h k →
      (inventory a trusted).known h k) :
    (inventory a trusted).Safe .top h t fun _ _ => True := by
  refine ht.safe (fun action haction h e he => ?_) (fun k hk h hvouched => ⟨hasks k hk h hvouched, trivial⟩)
    fun _ _ _ => trivial
  subst haction
  exact he.quiet rfl rfl (Nat.le_succ _)

theorem known_of_components_eq {trusted : Prop} {k : Key} (hk : k.components = []) (h : Inventory) :
    (inventory a trusted).known h k := by
  intro i hi
  rw [hk] at hi
  cases hi

/-- Threads that write nothing keep to the discipline, if they are honest wherever they are trusted. -/
theorem stocked_follow (trusted : Prop) {asks : Key → Prop} {tasks : List (Construct α)}
    (htasks : ∀ task ∈ tasks, Task.Confined (I := lowering) (· = .freshId) asks task)
    (hasks : ∀ k, asks k → ∀ h, (inventory a trusted).Vouched .top h k → (inventory a trusted).known h k)
    (schedule : List ThreadId)
    (hhonest : trusted → Honest a (Machine.start tasks Emission.empty) schedule) :
    ∃ h, Stocked a trusted ((Machine.start tasks Emission.empty).follow (recipes a) schedule) h := by
  have hstart : Stocked a trusted (Machine.start tasks Emission.empty) [] :=
    .start (Tallies.empty a) fun t task htask =>
      safe_of_silent (htasks task (List.mem_of_getElem? htask)) hasks
  obtain ⟨h, hgoverned⟩ := hstart.follow (inventory_lawful a trusted) schedule trivial
    fun htrusted before t hbefore h hm k hasking i hi =>
      Stocked.types_of_mem_typeIds hm (hhonest htrusted before t hbefore k hasking i hi)
  exact ⟨h, hgoverned⟩

theorem asks_entryPoints (a : Assembly) (entries : List EntryPoint) :
    Task.Confined (I := lowering) (· = .freshId) (fun k => k.components = [])
      (Construct.entryPoints a entries) :=
  .forM _ fun _ => .bind (.ofOption _ _) fun _ =>
    .bind (.ask (I := lowering) (r := .function _) rfl) fun _ => .pure _

/-- Whatever a run has come to can be told from its inventory. -/
theorem Consulted.stocked {w : World lowering Emission} (hw : Consulted a w) :
    ∃ (trusted : Prop) (m : Machine lowering Emission Unit) (h : Inventory),
      Stocked a trusted m h ∧ m.world = w := by
  cases hw with
  | clients requests schedule hhonest =>
    have htasks : ∀ task ∈ requests.map (Request.inTurn a), task.Silent a := fun task htask => by
      obtain ⟨turn, -, rfl⟩ := List.mem_map.mp htask
      exact silent_inTurn a turn
    obtain ⟨h, hstocked⟩ := stocked_follow True htasks (fun k _ h hvouched => hvouched trivial rfl) schedule
      fun _ => hhonest
    exact ⟨True, _, h, hstocked, rfl⟩
  | workers dealt schedule =>
    have htasks : ∀ task ∈ dealt.map (Construct.entryPoints a), Task.Confined (I := lowering)
        (· = .freshId) (fun k => k.components = []) task := fun task htask => by
      obtain ⟨part, -, rfl⟩ := List.mem_map.mp htask
      exact asks_entryPoints a part
    obtain ⟨h, hstocked⟩ := stocked_follow False htasks
      (fun k hk h _ => known_of_components_eq hk h) schedule False.elim
    exact ⟨False, _, h, hstocked, rfl⟩

end Runs

/-- At any time of a run whose clients ask for types that are ready, the declarations are in the order of
their results and refer to types before them, and what is ready refers to declarations that are there
once. -/
theorem Consulted.founded_and_backed {a : Assembly} {w : World lowering Emission} (hw : Consulted a w)
    (hids : w.shared.ids.issued + 1 < UInt32.size) (hfits : ∀ i ∈ w.shared.declared, i.Fits)
    (hcalls : ∀ key f, w.ready? (.function key) = some f → ∀ g, f.Below g → g.CallsFit) :
    Founded (Instruction.decode w.shared.declarations) ∧
      Backed (Instruction.decode w.shared.declarations) w.ready? := by
  have hissued : w.shared.ids.issued < UInt32.size := Nat.lt_of_succ_lt hids
  obtain ⟨trusted, m, h, hstocked, rfl⟩ := hw.stocked
  have hdeclared : Instruction.decode m.world.shared.declarations = h.declarations :=
    (Instruction.decode_flatMap_encode hfits).trans hstocked.inv.declared
  rw [hdeclared]
  exact ⟨hstocked.inv.founded hissued, hstocked.backed hissued hcalls⟩

/-! ## A request that fails half way -/

theorem honest_cons {α : Type} {a : Assembly} {m : Machine lowering Emission α} {t : ThreadId}
    {schedule : List ThreadId} : Honest a m (t :: schedule) ↔
      (∀ k ∈ m.asking? t, ∀ i ∈ k.components, i ∈ m.world.typeIds) ∧
        Honest a ((m.step (recipes a) t).getD m) schedule := by
  refine ⟨fun hm => ⟨fun k hk => ?_, fun before t' hbefore k hk => ?_⟩, ?_⟩
  · exact hm [] t (List.cons_prefix_cons.mpr ⟨rfl, List.nil_prefix⟩) k hk
  · exact hm (t :: before) t' (List.cons_prefix_cons.mpr ⟨rfl, hbefore⟩) k hk
  · rintro ⟨hfirst, hrest⟩ before t' hbefore k hk
    cases before with
    | nil =>
      obtain ⟨rfl, -⟩ := List.cons_prefix_cons.mp hbefore
      exact hfirst k hk
    | cons t'' before =>
      obtain ⟨rfl, -⟩ := List.cons_prefix_cons.mp hbefore
      exact hrest before t' (List.cons_prefix_cons.mp hbefore).2 k hk

instance decidableHonest {α : Type} (a : Assembly) : (m : Machine lowering Emission α) →
    (schedule : List ThreadId) → Decidable (Honest a m schedule)
  | _, [] => .isTrue fun before t hbefore => by simp at hbefore
  | m, t :: schedule =>
    have := decidableHonest a ((m.step (recipes a) t).getD m) schedule
    decidable_of_iff _ honest_cons.symm

/-- The keys of the functions that have been asked for. -/
def Construction.World.functionKeys (w : World lowering Emission) : List FunctionKey :=
  w.cells.keys.filterMap fun
    | .function key => some key
    | _ => none

theorem Construction.World.mem_functionKeys {w : World lowering Emission} {key : FunctionKey}
    {f : Function} (hf : w.ready? (.function key) = some f) : key ∈ w.functionKeys := by
  refine List.mem_filterMap.mpr ⟨.function key, Table.mem_keys_iff.mpr ?_, rfl⟩
  obtain ⟨cell, hcell, -⟩ := Option.bind_eq_some_iff.mp hf
  exact Option.isSome_of_eq_some hcell

section Hasty

open Il (Operation)

/-- The method that calls has an instruction at its end that cannot be lowered. -/
def hasty : Assembly :=
  painterWith [⟨0⟩, ⟨0⟩] (paint.code.push (Operation.returnValue none).encode) shade.code

/-- One client asks for that method and a constant, the other for the output, the method that is called,
and a vector. -/
def hastyRequests : List (List Request) :=
  [[.method ⟨0⟩, .constant ⟨2⟩ 7], [.global ⟨0⟩, .function ⟨⟨1⟩, [⟨0⟩]⟩, .shape (.vector ⟨2⟩ 4)]]

/-- The two clients take steps in turn. -/
def hastySchedule : List ThreadId :=
  (List.replicate 70 [0, 1]).flatten

/-- What the two clients come to. -/
def hastyWorld : World lowering Emission :=
  ((Clients.start hasty hastyRequests).follow hasty hastySchedule).world

/-- The function that is ready calls none. -/
theorem hasty_callsFit {key : FunctionKey} {f g : Function}
    (hf : hastyWorld.ready? (.function key) = some f) (hbelow : f.Below g) : g.CallsFit := by
  have hkeys : ∀ key' ∈ hastyWorld.functionKeys,
      (hastyWorld.ready? (.function key')).all (fun f => f.callees.isEmpty) = true := by decide +kernel
  have hleaf := hkeys key (World.mem_functionKeys hf)
  rw [hf, Option.all_some, List.isEmpty_iff] at hleaf
  rcases hbelow.cases_head with rfl | ⟨g', hg', -⟩
  · intro g' hg'
    rw [hleaf] at hg'
    cases hg'
  · rw [hleaf] at hg'
    cases hg'

/-- The method fails after types, a constant and the output have been declared for it; the declarations
are well founded all the same. -/
theorem hasty_founded : Honest hasty (Clients.start hasty hastyRequests) hastySchedule ∧
    hastyWorld.state? (.function ⟨⟨0⟩, []⟩) = some .failed ∧
    (hastyWorld.ready? (.function ⟨⟨1⟩, [⟨0⟩]⟩)).isSome = true ∧
    hastyWorld.shared.declared.map Instruction.op? = [some .typeVoid, some .typeFloat, some .typeFunction,
      some .typePointer, some .variable, some .typePointer, some .typeFunction, some .constant,
      some .typeVector, some .constant] ∧
    Founded (Instruction.decode hastyWorld.shared.declarations) ∧
      Backed (Instruction.decode hastyWorld.shared.declarations) hastyWorld.ready? := by
  have hhonest : Honest hasty (Clients.start hasty hastyRequests) hastySchedule := by decide +kernel
  have hfits : hastyWorld.shared.declared.all (fun i => i.operands.length + 1 < UInt16.size) = true := by
    decide +kernel
  refine ⟨hhonest, by decide +kernel, by decide +kernel, by decide +kernel, ?_⟩
  refine Consulted.founded_and_backed (.clients hastyRequests hastySchedule hhonest) ?_ (fun i hi => ?_)
    fun key f hf g hbelow => hasty_callsFit hf hbelow
  · decide +kernel
  · simpa [Instruction.Fits] using List.all_eq_true.mp hfits i hi

end Hasty

end ShaderLowering
