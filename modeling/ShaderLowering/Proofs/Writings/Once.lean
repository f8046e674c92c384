import ShaderLowering.Proofs.Modules.Functions
import ShaderLowering.Proofs.Writings.Provenance

/-!
# Nothing is declared twice

`DeclaredOnce` says of declarations and annotations that no built-in type and no constant is declared
twice, that structs belong to front-end types one to one, and variables and decorations to static
fields.  To whom a declaration belongs is not written on it: structs and variables have owners
(`StructsOnce`, `VariablesOnce`).  An owner is under construction or ready, never failed (`Owns`), and one
that is ready has the declaration with its own id.

All of it stays true when ids are renamed and instructions permuted (`DeclaredOnce.renamed`), which is
what the layout does with them.
-/

namespace ShaderLowering

open Construction (SlotState)
open Spirv

namespace Construction.SlotState

variable {α β : Type}

/-- A slot with what is read off its value. -/
def map (f : α → β) : SlotState α → SlotState β
  | .building => .building
  | .ready value => .ready (f value)
  | .failed => .failed

theorem map_eq_ready {f : α → β} {s : SlotState α} {w : β} :
    s.map f = .ready w ↔ ∃ v, s = .ready v ∧ f v = w := by
  cases s <;> simp [map]

end Construction.SlotState

namespace Spirv.Instruction

/-- An instruction that declares a built-in type or a constant. -/
def IsInterned (i : Instruction) : Prop :=
  i.op? ∈ [Op.typeVoid, .typeInt, .typeFloat, .typeVector, .typePointer, .typeFunction,
    .constant].map some

instance (i : Instruction) : Decidable i.IsInterned :=
  inferInstanceAs (Decidable (_ ∈ _))

/-- What a declaration says, whatever its result: its opcode and the other operands. -/
def content (i : Instruction) : UInt16 × List Word :=
  (i.opcode, i.operands.eraseIdx (i.op?.elim 0 Layout.resultPosition))

end Spirv.Instruction

/-- What owns a declaration has not failed: it is still under construction, or ready under the id that has
been declared. -/
def Owns {κ : Type} (slot? : κ → Option (SlotState Word)) (owned : κ × Word) : Prop :=
  slot? owned.1 = some .building ∨ slot? owned.1 = some (.ready owned.2)

/-- The structs among declarations belong to front-end types, each to another one. -/
structure StructsOnce (a : Assembly) (declared : List Instruction)
    (typeSlot? : TypeId → Option (SlotState Word)) (owned : List (TypeId × Word)) : Prop where
  once : (owned.map Prod.fst).Nodup
  owners : ∀ o ∈ owned, a.IsStruct o.1 ∧ Owns typeSlot? o
  results : ((withOp .typeStruct declared).filterMap (Instruction.resultId? .named)).Perm
    (owned.map Prod.snd)
  ready : ∀ id w, a.IsStruct id → typeSlot? id = some (.ready w) → (id, w) ∈ owned

/-- The variables among declarations belong to static fields, each to another one.  Every decoration is
that of such a variable with the location of its field, no two are of the same one, and a variable that
is ready has one exactly if there is a location. -/
structure VariablesOnce (a : Assembly) (declared annotated : List Instruction)
    (globalSlot? : FieldId → Option (SlotState Word)) (owned located : List (FieldId × Word)) :
    Prop where
  once : (owned.map Prod.fst).Nodup
  owners : ∀ o ∈ owned, a.IsStatic o.1 ∧ Owns globalSlot? o
  results : ((withOp .variable declared).filterMap (Instruction.resultId? .named)).Perm
    (owned.map Prod.snd)
  among : located.Subperm owned
  locations : ∀ o ∈ located, (a.location? o.1).isSome
  annotated : annotated.Perm
    (located.map fun o => decoration ⟨o.2⟩ ((a.location? o.1).getD 0))
  ready : ∀ field w, globalSlot? field = some (.ready w) →
    (field, w) ∈ owned ∧ ((field, w) ∈ located ↔ (a.location? field).isSome)

/-- Declarations and annotations hold nothing twice.  The slots of types and of variables say which owners
there are; as long as `few` ids have been issued, no id is declared or decorated twice either. -/
structure DeclaredOnce (a : Assembly) (few : Prop) (declared annotated : List Instruction)
    (typeSlot? : TypeId → Option (SlotState Word)) (globalSlot? : FieldId → Option (SlotState Word)) :
    Prop where
  interned : ((declared.filter Instruction.IsInterned).map Instruction.content).Nodup
  structs : ∃ owned, StructsOnce a declared typeSlot? owned
  globals : ∃ owned located, VariablesOnce a declared annotated globalSlot? owned located
  results : few → (declared.filterMap (Instruction.resultId? .named)).Nodup
  targets : few → (annotated.filterMap fun i => i.operands.head?).Nodup

/-! ## Contents under other names -/

section Contents

variable {r : Word → Word} {i j : Instruction} {op : Op}

/-- Where built-in types and constants have ids is up to the opcode and the number of operands. -/
theorem idPositions_eq_of_interned (hi : i.IsInterned) (hop : i.op? = j.op?)
    (hlength : i.operands.length = j.operands.length) : i.idPositions = j.idPositions := by
  obtain ⟨op, hmem, hi⟩ := List.mem_map.mp hi
  have hnominal : i.nominalIdPositions = j.nominalIdPositions := by
    rw [Instruction.nominalIdPositions, Instruction.nominalIdPositions, ← hop, ← hi, hlength]
    cases op <;> first | rfl | simp at hmem
  rw [Instruction.idPositions, Instruction.idPositions, hnominal, hlength]

/-- Operands that are equal under new names were equal. -/
theorem getElem?_operands_of_mapIds (hr : Set.InjOn r {w | w ∈ i.ids ++ j.ids})
    (hpositions : i.idPositions = j.idPositions) {p : Nat}
    (heq : (i.mapIds r).operands[p]? = (j.mapIds r).operands[p]?) :
    i.operands[p]? = j.operands[p]? := by
  rw [Instruction.getElem?_operands_mapIds, Instruction.getElem?_operands_mapIds, hpositions] at heq
  cases hi : i.operands[p]? with
  | none =>
    rw [hi] at heq
    exact (Option.map_eq_none_iff.mp heq.symm).symm
  | some w =>
    rw [hi, Option.map_some] at heq
    obtain ⟨v, hj, hv⟩ := Option.map_eq_some_iff.mp heq.symm
    rw [hj]
    -- Ids are compared under the injective renaming; other words have not been touched.
    by_cases hp : p ∈ j.idPositions
    · rw [if_pos hp, if_pos hp] at hv
      have hw : w ∈ i.ids := List.mem_filterMap.mpr ⟨p, hpositions ▸ hp, hi⟩
      have hv' : v ∈ j.ids := List.mem_filterMap.mpr ⟨p, hp, hj⟩
      exact congrArg some (hr (List.mem_append_right _ hv') (List.mem_append_left _ hw) hv).symm
    · rw [if_neg hp, if_neg hp] at hv
      exact congrArg some hv.symm

/-- Contents that are equal under new names were equal. -/
theorem content_eq_of_mapIds (hr : Set.InjOn r {w | w ∈ i.ids ++ j.ids}) (hi : i.IsInterned)
    (hresult : (i.resultId? .named).isSome) (hresult' : (j.resultId? .named).isSome)
    (heq : (i.mapIds r).content = (j.mapIds r).content) : i.content = j.content := by
  obtain ⟨op, -, hop⟩ := List.mem_map.mp hi
  obtain ⟨hopcode, hrest⟩ := Prod.mk.inj heq
  have hsame : i.op? = j.op? := congrArg Op.ofCode? hopcode
  set p := Layout.resultPosition op
  simp only [Instruction.op?_mapIds, ← hsame, ← hop, Option.elim_some] at hrest
  -- The result that is left out is there in both, so they are equally long.
  have hin : p < i.operands.length := by
    rw [Layout.resultId?_eq .named hop.symm] at hresult
    simpa using hresult
  have hin' : p < j.operands.length := by
    rw [Layout.resultId?_eq .named (hsame.symm.trans hop.symm)] at hresult'
    simpa using hresult'
  have hlength : i.operands.length = j.operands.length := by
    have hcount := congrArg List.length hrest
    rw [List.length_eraseIdx_of_lt (by simpa using hin),
      List.length_eraseIdx_of_lt (by simpa using hin'), Instruction.length_operands_mapIds,
      Instruction.length_operands_mapIds] at hcount
    omega
  have hpositions := idPositions_eq_of_interned hi hsame hlength
  have hrest' : i.operands.eraseIdx p = j.operands.eraseIdx p := by
    refine List.ext_getElem? fun n => ?_
    have hn := congrArg (fun ws => ws[n]?) hrest
    simp only [List.getElem?_eraseIdx] at hn ⊢
    split at hn
    · next hbefore =>
      rw [if_pos hbefore, if_pos hbefore]
      exact getElem?_operands_of_mapIds hr hpositions hn
    · next hafter =>
      rw [if_neg hafter, if_neg hafter]
      exact getElem?_operands_of_mapIds hr hpositions hn
  rw [Instruction.content, Instruction.content, ← hsame, ← hop]
  exact Prod.ext hopcode hrest'

end Contents

/-! ## Renaming -/

section Renaming

variable {a : Assembly} {few : Prop} {declared annotated types annotations : List Instruction}
  {typeSlot? : TypeId → Option (SlotState Word)} {globalSlot? : FieldId → Option (SlotState Word)}
  {r : Word → Word}

/-- Declarations with a result, and where they stand after a renaming. -/
structure Moved (r : Word → Word) (declared types : List Instruction) : Prop where
  declares : ∀ d ∈ declared, Layout.Declares d
  results : ∀ d ∈ declared, (d.resultId? .named).isSome
  injective : Set.InjOn r {w | w ∈ Layout.idsOf declared}
  perm : types.Perm (declared.map (Instruction.mapIds r))

theorem mem_idsOf_of_mem {d : Instruction} {w : Word} (hd : d ∈ declared) (hw : w ∈ d.ids) :
    w ∈ Layout.idsOf declared :=
  List.mem_flatMap.mpr ⟨d, hd, hw⟩

namespace Moved

variable (h : Moved r declared types)

include h

theorem filterMap_resultId? (op : Op) : ((withOp op types).filterMap (Instruction.resultId? .named)).Perm
    (((withOp op declared).filterMap (Instruction.resultId? .named)).map r) := by
  refine ((h.perm.filter _).filterMap _).trans ?_
  rw [List.filter_map, List.filterMap_map, List.map_filterMap]
  refine List.Perm.of_eq (List.filterMap_congr fun d hd => ?_)
  exact (h.declares d (List.mem_of_mem_filter hd)).resultId?_mapIds .named r

theorem results_nodup (hdistinct : (declared.filterMap (Instruction.resultId? .named)).Nodup) :
    (types.filterMap (Instruction.resultId? .named)).Nodup := by
  have hresults : (declared.map (Instruction.mapIds r)).filterMap (Instruction.resultId? .named) =
      (declared.filterMap (Instruction.resultId? .named)).map r := by
    rw [List.filterMap_map, List.map_filterMap]
    exact List.filterMap_congr fun d hd => (h.declares d hd).resultId?_mapIds .named r
  rw [(h.perm.filterMap _).nodup_iff, hresults, List.nodup_map_iff_inj_on hdistinct]
  intro w hw v hv heq
  obtain ⟨d, hd, hresult⟩ := List.mem_filterMap.mp hw
  obtain ⟨d', hd', hresult'⟩ := List.mem_filterMap.mp hv
  exact h.injective (mem_idsOf_of_mem hd ((h.declares d hd).mem_ids hresult))
    (mem_idsOf_of_mem hd' ((h.declares d' hd').mem_ids hresult')) heq

theorem contents_nodup
    (honce : ((declared.filter Instruction.IsInterned).map Instruction.content).Nodup) :
    ((types.filter Instruction.IsInterned).map Instruction.content).Nodup := by
  have hperm : ((types.filter Instruction.IsInterned).map Instruction.content).Perm
      ((declared.filter Instruction.IsInterned).map
        (Instruction.content ∘ Instruction.mapIds r)) := by
    refine ((h.perm.filter _).map _).trans (List.Perm.of_eq ?_)
    rw [List.filter_map, List.map_map]
    rfl
  rw [hperm.nodup_iff]
  refine List.pairwise_map.mpr ((List.pairwise_map.mp honce).imp_of_mem fun {i j} hi hj hne heq => ?_)
  obtain ⟨hi, hinterned⟩ := List.mem_filter.mp hi
  have hj := List.mem_of_mem_filter hj
  refine hne (content_eq_of_mapIds (h.injective.mono fun w hw => ?_) (of_decide_eq_true hinterned)
    (h.results i hi) (h.results j hj) heq)
  rcases List.mem_append.mp hw with hw | hw
  · exact mem_idsOf_of_mem hi hw
  · exact mem_idsOf_of_mem hj hw

end Moved

/-- An owner and the id that it has under its new name. -/
abbrev renameOwned {κ : Type} (r : Word → Word) : κ × Word → κ × Word :=
  Prod.map id r

theorem map_fst_renameOwned {κ : Type} (owned : List (κ × Word)) :
    (owned.map (renameOwned r)).map Prod.fst = owned.map Prod.fst := by
  rw [List.map_map]
  rfl

theorem map_snd_renameOwned {κ : Type} (owned : List (κ × Word)) :
    (owned.map (renameOwned r)).map Prod.snd = (owned.map Prod.snd).map r := by
  rw [List.map_map, List.map_map]
  rfl

/-- A slot with its id under its new name. -/
abbrev renameSlot {κ : Type} (r : Word → Word) (slot? : κ → Option (SlotState Word)) (k : κ) :
    Option (SlotState Word) :=
  (slot? k).map (SlotState.map r)

theorem renameSlot_eq_ready {κ : Type} {slot? : κ → Option (SlotState Word)} {k : κ} {w : Word} :
    renameSlot r slot? k = some (.ready w) ↔ ∃ v, slot? k = some (.ready v) ∧ r v = w := by
  cases hslot : slot? k <;> simp [renameSlot, hslot, SlotState.map_eq_ready]

theorem Owns.renamed {κ : Type} {slot? : κ → Option (SlotState Word)} {o : κ × Word}
    (h : Owns slot? o) : Owns (renameSlot r slot?) (renameOwned r o) := by
  rcases h with hbuilding | hready
  · exact .inl (congrArg (Option.map (SlotState.map r)) hbuilding)
  · exact .inr (renameSlot_eq_ready.mpr ⟨o.2, hready, rfl⟩)

theorem StructsOnce.renamed {owned : List (TypeId × Word)}
    (h : StructsOnce a declared typeSlot? owned) (hmoved : Moved r declared types) :
    StructsOnce a types (renameSlot r typeSlot?) (owned.map (renameOwned r)) where
  once := by
    rw [map_fst_renameOwned]
    exact h.once
  owners o ho := by
    obtain ⟨o', ho', rfl⟩ := List.mem_map.mp ho
    exact ⟨(h.owners o' ho').1, (h.owners o' ho').2.renamed⟩
  results := by
    rw [map_snd_renameOwned]
    exact (hmoved.filterMap_resultId? .typeStruct).trans (h.results.map r)
  ready id w hstruct hw := by
    obtain ⟨v, hv, rfl⟩ := renameSlot_eq_ready.mp hw
    exact List.mem_map_of_mem (h.ready id v hstruct hv)

theorem subperm_map {α β : Type} (f : α → β) {xs ys : List α} (h : xs.Subperm ys) :
    (xs.map f).Subperm (ys.map f) := by
  obtain ⟨l, hperm, hsublist⟩ := h
  exact ⟨l.map f, hperm.map f, hsublist.map f⟩

/-- The decoration of a renamed id. -/
theorem mapIds_decoration (r : Word → Word) (w location : Word) :
    (decoration ⟨w⟩ location).mapIds r = decoration ⟨r w⟩ location := by
  simp [decoration, Instruction.mapIds, Instruction.idPositions, Instruction.nominalIdPositions,
    Instruction.op?]

namespace VariablesOnce

variable {owned located : List (FieldId × Word)}
  (h : VariablesOnce a declared annotated globalSlot? owned located)

include h

theorem renamed (hmoved : Moved r declared types)
    (hannotations : annotations.Perm (annotated.map (Instruction.mapIds r))) :
    VariablesOnce a types annotations (renameSlot r globalSlot?) (owned.map (renameOwned r))
      (located.map (renameOwned r)) where
  once := by
    rw [map_fst_renameOwned]
    exact h.once
  owners o ho := by
    obtain ⟨o', ho', rfl⟩ := List.mem_map.mp ho
    exact ⟨(h.owners o' ho').1, (h.owners o' ho').2.renamed⟩
  results := by
    rw [map_snd_renameOwned]
    exact (hmoved.filterMap_resultId? .variable).trans (h.results.map r)
  among := subperm_map _ h.among
  locations o ho := by
    obtain ⟨o', ho', rfl⟩ := List.mem_map.mp ho
    exact h.locations o' ho'
  annotated := by
    refine (hannotations.trans (h.annotated.map _)).trans (List.Perm.of_eq ?_)
    rw [List.map_map, List.map_map]
    exact List.map_congr_left fun o _ => mapIds_decoration r o.2 _
  ready field w hw := by
    obtain ⟨v, hv, rfl⟩ := renameSlot_eq_ready.mp hw
    obtain ⟨howned, hlocated⟩ := h.ready field v hv
    refine ⟨List.mem_map_of_mem howned, fun hmem => ?_, fun hsome =>
      List.mem_map_of_mem (hlocated.mpr hsome)⟩
    obtain ⟨o, ho, heq⟩ := List.mem_map.mp hmem
    obtain ⟨rfl, -⟩ := Prod.mk.inj heq
    exact h.locations o ho

/-- What is decorated are variables that are declared, so where results are distinct the targets of
decorations are. -/
theorem targets_nodup (hresults : (declared.filterMap (Instruction.resultId? .named)).Nodup) :
    (annotated.filterMap fun i => i.operands.head?).Nodup := by
  have htargets : (annotated.filterMap fun i => i.operands.head?).Perm (located.map Prod.snd) := by
    refine (h.annotated.filterMap _).trans (List.Perm.of_eq ?_)
    rw [List.filterMap_map, ← List.filterMap_eq_map]
    rfl
  have hvariables : (owned.map Prod.snd).Nodup := by
    rw [← h.results.nodup_iff]
    exact hresults.sublist (List.filter_sublist.filterMap _)
  rw [htargets.nodup_iff]
  obtain ⟨l, hperm, hsublist⟩ := subperm_map Prod.snd h.among
  exact hperm.nodup_iff.mp (hvariables.sublist hsublist)

end VariablesOnce

/-- Nothing is declared twice under new names and in another order. -/
theorem DeclaredOnce.renamed (h : DeclaredOnce a few declared annotated typeSlot? globalSlot?)
    (hmoved : Moved r declared types)
    (hannotations : annotations.Perm (annotated.map (Instruction.mapIds r))) :
    DeclaredOnce a few types annotations (renameSlot r typeSlot?) (renameSlot r globalSlot?) := by
  obtain ⟨owned, hstructs⟩ := h.structs
  obtain ⟨owned', located, hglobals⟩ := h.globals
  have hglobals' := hglobals.renamed hmoved hannotations
  exact ⟨hmoved.contents_nodup h.interned, ⟨_, hstructs.renamed hmoved⟩, ⟨_, _, hglobals'⟩,
    fun hfew => hmoved.results_nodup (h.results hfew),
    fun hfew => hglobals'.targets_nodup (hmoved.results_nodup (h.results hfew))⟩

end Renaming

end ShaderLowering
