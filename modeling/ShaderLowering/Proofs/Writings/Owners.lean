import ShaderLowering.Proofs.Writings.Once

/-!
# Whose declarations are whose

Where it is known which construction has written what (`Attributed`), nothing is declared twice: a
construction declares at most once, and from what is declared follows whose it is.  For built-in types
and constants it follows from the declaration itself, since shapes are told apart by what they declare
(`Shape.eq_of_declares`).  Structs and variables are told apart by their owners only, for which the
record stands in.
-/

namespace ShaderLowering

open Construction (SlotState)
open Spirv

/-- Everything that has been written has been written by the construction of a key that may be asked
for and that has not failed, and what is ready is what its construction has written. -/
structure Attributed (a : Assembly) (h : Writings) (e : Emission)
    (state? : (k : Key) → Option (SlotState k.Value)) : Prop where
  recorded : Recorded a h e
  askable : ∀ note ∈ h, Askable a note.1
  live : ∀ note ∈ h, state? note.1 = some .building ∨ ∃ v, state? note.1 = some (.ready v)
  finished : ∀ k v, state? k = some (.ready v) → Finished a h k v

/-- The slot of a type, with the id that the type has when it is ready. -/
def typeSlot? (state? : (k : Key) → Option (SlotState k.Value)) (id : TypeId) :
    Option (SlotState Word) :=
  (state? (.type id)).map (SlotState.map Id.raw)

/-- The slot of a variable, with the id that the variable has when it is ready. -/
def globalSlot? (state? : (k : Key) → Option (SlotState k.Value)) (field : FieldId) :
    Option (SlotState Word) :=
  (state? (.variable field)).map (SlotState.map fun v => v.id.raw)

/-- A piece of what the construction of a key writes. -/
inductive Piece (a : Assembly) : Key → Writing → Prop
  | struct {type : TypeId} (hstruct : a.IsStruct type) (members : List Id) (id : Id) :
      Piece a (.type type) (.declared (.struct members) id)
  | shape (s : Shape) (id : Id) : Piece a (.shape s) (.declared (.shape s) id)
  | constant (type : Id) (bits : Word) (id : Id) :
      Piece a (.constant type bits) (.declared (.constant type bits) id)
  | global (field : FieldId) (pointerType : Id) (storage : StorageClass) (id : Id) :
      Piece a (.variable field) (.declared (.variable pointerType storage) id)
  | location {field : FieldId} {location : Word} (hlocation : a.location? field = some location)
      (id : Id) : Piece a (.variable field) (.decorated id location)

/-! ## What tells shapes apart -/

theorem Spirv.StorageClass.code_injective : Function.Injective StorageClass.code := by
  intro s s' h
  cases s <;> cases s' <;> first | rfl | cases h

theorem Spirv.Id.raw_injective : Function.Injective Id.raw := fun ⟨_⟩ ⟨_⟩ h => congrArg Id.mk h

theorem Spirv.Op.code_injective : Function.Injective Op.code := fun op op' h =>
  Option.some.inj ((op.ofCode?_code.symm.trans (congrArg Op.ofCode? h)).trans op'.ofCode?_code)

theorem Shape.op_ne_constant (s : Shape) : s.op ≠ .constant := by
  cases s <;> exact nofun

/-- Two shapes are the same if they are declared with the same opcode and the same operands. -/
theorem Shape.eq_of_declares {s s' : Shape} (hop : s.op = s'.op) (hoperands : s.operands = s'.operands) :
    s = s' := by
  cases s <;> cases s' <;> simp only [Shape.op, reduceCtorEq] at hop
  case void.void => rfl
  case int.int width signed width' signed' =>
    obtain ⟨rfl, hrest⟩ := List.cons.inj hoperands
    cases signed <;> cases signed' <;> first | rfl | simp at hrest
  case float.float width width' =>
    obtain ⟨rfl, -⟩ := List.cons.inj hoperands
    rfl
  case vector.vector element size element' size' =>
    obtain ⟨helement, hsize⟩ := List.cons.inj hoperands
    rw [Id.raw_injective helement, List.singleton_inj.mp hsize]
  case pointer.pointer storage pointee storage' pointee' =>
    obtain ⟨hstorage, hpointee⟩ := List.cons.inj hoperands
    rw [StorageClass.code_injective hstorage, Id.raw_injective (List.singleton_inj.mp hpointee)]
  case function.function returnType parameters returnType' parameters' =>
    obtain ⟨hreturn, hparameters⟩ := List.cons.inj hoperands
    rw [Id.raw_injective hreturn, Id.raw_injective.list_map hparameters]

theorem op?_shape (s : Shape) (id : Id) : ((Declaration.shape s).instruction id).op? = some s.op :=
  Op.ofCode?_code _

theorem isInterned_shape (s : Shape) (id : Id) : ((Declaration.shape s).instruction id).IsInterned := by
  rw [Instruction.IsInterned, op?_shape]
  cases s <;> simp [Shape.op]

theorem isInterned_constant (type : Id) (bits : Word) (id : Id) :
    ((Declaration.constant type bits).instruction id).IsInterned := by
  simp [Instruction.IsInterned, Declaration.instruction, Instruction.op?]

theorem content_shape (s : Shape) (id : Id) :
    ((Declaration.shape s).instruction id).content = (s.op.code, s.operands) := by
  rw [Instruction.content, op?_shape]
  cases s <;> rfl

theorem content_constant (type : Id) (bits : Word) (id : Id) :
    ((Declaration.constant type bits).instruction id).content = (Op.constant.code, [type.raw, bits]) := by
  simp [Instruction.content, Declaration.instruction, Instruction.op?, Layout.resultPosition]

/-- Every declaration declares something. -/
theorem declares_instruction (d : Declaration) (id : Id) : Layout.Declares (d.instruction id) := by
  unfold Layout.Declares
  cases d with
  | shape s =>
    rw [op?_shape]
    cases s <;> simp [Shape.op]
  | _ => simp [Declaration.instruction, Instruction.op?]

/-! ## Registers -/

/-- The front-end type that a piece of writing declares a struct for, and the id of the struct. -/
def structOf? : Key × Writing → Option (TypeId × Word)
  | (.type type, .declared _ id) => some (type, id.raw)
  | _ => none

/-- The field that a piece of writing declares a variable for, and the id of the variable. -/
def globalOf? : Key × Writing → Option (FieldId × Word)
  | (.variable field, .declared _ id) => some (field, id.raw)
  | _ => none

/-- The field whose variable a piece of writing decorates, and the id of the variable. -/
def locatedOf? : Key × Writing → Option (FieldId × Word)
  | (.variable field, .decorated target _) => some (field, target.raw)
  | _ => none

/-- What a piece of writing says of a built-in type or a constant. -/
def contentOf? (note : Key × Writing) : Option (UInt16 × List Word) :=
  note.2.declaration?.bind fun i => if i.IsInterned then some i.content else none

/-- A content is that of a shape or of a constant. -/
theorem contentOf?_eq_some {a : Assembly} {k : Key} {w : Writing} {c : UInt16 × List Word}
    (hw : Piece a k w) (hc : contentOf? (k, w) = some c) :
    (∃ s, k = .shape s ∧ c = (s.op.code, s.operands)) ∨
      ∃ type bits, k = .constant type bits ∧ c = (Op.constant.code, [type.raw, bits]) := by
  cases hw with
  | shape s id =>
    refine .inl ⟨s, rfl, ?_⟩
    rw [contentOf?, Writing.declaration?, Option.bind_some, if_pos (isInterned_shape s id),
      content_shape] at hc
    exact (Option.some.inj hc).symm
  | constant type bits id =>
    refine .inr ⟨type, bits, rfl, ?_⟩
    rw [contentOf?, Writing.declaration?, Option.bind_some, if_pos (isInterned_constant type bits id),
      content_constant] at hc
    exact (Option.some.inj hc).symm
  | struct hstruct members id =>
    simp [contentOf?, Writing.declaration?, Instruction.IsInterned, Instruction.op?,
      Declaration.instruction] at hc
  | global field pointerType storage id =>
    simp [contentOf?, Writing.declaration?, Instruction.IsInterned, Instruction.op?,
      Declaration.instruction] at hc
  | location hlocation id => cases hc

section Registers

variable {a : Assembly} {h : Writings} {e : Emission} {k : Key} {w : Writing} {ws : List Writing}

theorem Permitted.piece (h : Permitted a k ws) (hw : w ∈ ws) : Piece a k w := by
  cases h with
  | nothing => cases hw
  | struct hstruct members id =>
    obtain rfl := List.mem_singleton.mp hw
    exact .struct hstruct members id
  | shape s id =>
    obtain rfl := List.mem_singleton.mp hw
    exact .shape s id
  | constant type bits id =>
    obtain rfl := List.mem_singleton.mp hw
    exact .constant type bits id
  | global field pointerType storage id =>
    obtain rfl := List.mem_singleton.mp hw
    exact .global field pointerType storage id
  | located hlocation pointerType storage id =>
    rcases List.mem_pair.mp hw with rfl | rfl
    · exact .global _ pointerType storage id
    · exact .location hlocation id

/-- A construction decorates what it has declared. -/
theorem Permitted.declared_of_decorated (h : Permitted a k ws) {target : Id} {location : Word}
    (hw : .decorated target location ∈ ws) : ∃ d, .declared d target ∈ ws := by
  cases h with
  | located hlocation pointerType storage id =>
    have hw := List.mem_singleton.mp ((List.mem_cons.mp hw).resolve_left nofun)
    obtain ⟨rfl, -⟩ := Writing.decorated.inj hw
    exact ⟨_, List.mem_cons_self⟩
  | nothing => cases hw
  | _ => cases List.mem_singleton.mp hw

theorem Recorded.piece (he : Recorded a h e) (hw : (k, w) ∈ h) : Piece a k w :=
  (he.permitted k).piece (Writings.mem_of.mpr hw)

/-- What is read off the pieces of writing is read once, if each construction has at most one such
piece and it can be told from what is read whose it is. -/
theorem nodup_filterMap {β : Type} {f : Key × Writing → Option β} (h : Writings)
    (howner : ∀ note ∈ h, ∀ note' ∈ h, ∀ b, f note = some b → f note' = some b → note.1 = note'.1)
    (hone : ∀ k, ((h.of k).filterMap fun w => f (k, w)).length ≤ 1) : (h.filterMap f).Nodup := by
  induction h with
  | nil => exact List.nodup_nil
  | cons note rest ih =>
    have hrest : (rest.filterMap f).Nodup := by
      refine ih (fun n hn n' hn' => howner n (.tail _ hn) n' (.tail _ hn')) fun k => ?_
      have hsublist : List.Sublist (Writings.of rest k) (Writings.of (note :: rest) k) :=
        ((List.sublist_cons_self note rest).filter _).map _
      exact (hsublist.filterMap _).length_le.trans (hone k)
    cases hf : f note with
    | none => rwa [List.filterMap_cons_none hf]
    | some b =>
      rw [List.filterMap_cons_some hf]
      refine List.nodup_cons.mpr ⟨fun hb => ?_, hrest⟩
      -- Another piece with the same reading would be a second one of the same construction.
      obtain ⟨note', hnote', hf'⟩ := List.mem_filterMap.mp hb
      have hsame : note.1 = note'.1 := howner note (.head _) note' (.tail _ hnote') b hf hf'
      have hmore : b ∈ (Writings.of rest note.1).filterMap fun w => f (note.1, w) := by
        refine List.mem_filterMap.mpr ⟨note'.2, Writings.mem_of.mpr ?_, ?_⟩ <;> rw [hsame]
        · exact hnote'
        · exact hf'
      have hcount := hone note.1
      have hof : Writings.of (note :: rest) note.1 = note.2 :: Writings.of rest note.1 := by
        simp [Writings.of]
      rw [hof, List.filterMap_cons_some (f := fun w => f (note.1, w)) hf, List.length_cons] at hcount
      have hpos := List.length_pos_of_mem hmore
      omega

namespace Recorded

variable (he : Recorded a h e)

include he

/-- What is read off the pieces of writing is read once, if a construction has at most one such piece
and what is read names the construction. -/
theorem nodup_of_key {β : Type} {f : Key × Writing → Option β} (key : β → Key)
    (hkey : ∀ k w b, Piece a k w → f (k, w) = some b → k = key b)
    (hone : ∀ k ws, Permitted a k ws → (ws.filterMap fun w => f (k, w)).length ≤ 1) :
    (h.filterMap f).Nodup := by
  refine nodup_filterMap h (fun note hnote note' hnote' b hb hb' => ?_) fun k =>
    hone k _ (he.permitted k)
  exact (hkey _ _ b (he.piece hnote) hb).trans (hkey _ _ b (he.piece hnote') hb').symm

theorem structs_once : ((h.filterMap structOf?).map Prod.fst).Nodup := by
  rw [List.map_filterMap]
  refine he.nodup_of_key .type (fun k w type hw heq => ?_) fun k ws hws => ?_
  · cases hw <;> cases heq
    rfl
  · cases hws <;> simp [structOf?]

theorem globals_once : ((h.filterMap globalOf?).map Prod.fst).Nodup := by
  rw [List.map_filterMap]
  refine he.nodup_of_key .variable (fun k w field hw heq => ?_) fun k ws hws => ?_
  · cases hw <;> cases heq
    rfl
  · cases hws <;> simp [globalOf?]

theorem located_once : (h.filterMap locatedOf?).Nodup := by
  refine he.nodup_of_key (fun o => .variable o.1) (fun k w o hw heq => ?_) fun k ws hws => ?_
  · cases hw <;> cases heq
    rfl
  · cases hws <;> simp [locatedOf?]

/-- What is said of built-in types and constants is said once. -/
theorem contents_once : (h.filterMap contentOf?).Nodup := by
  refine nodup_filterMap h ?_ fun k => ?_
  · rintro ⟨k, w⟩ hw ⟨k', w'⟩ hw' c hc hc'
    -- Shapes and constants differ in their opcode; within each, the operands tell the key.
    obtain hs | hs := contentOf?_eq_some (he.piece hw) hc <;>
      obtain hs' | hs' := contentOf?_eq_some (he.piece hw') hc'
    · obtain ⟨s, rfl, rfl⟩ := hs
      obtain ⟨s', rfl, heq⟩ := hs'
      obtain ⟨hop, hoperands⟩ := Prod.mk.inj heq
      exact congrArg Key.shape (Shape.eq_of_declares (Op.code_injective hop) hoperands)
    · obtain ⟨s, rfl, rfl⟩ := hs
      obtain ⟨type, bits, rfl, heq⟩ := hs'
      exact absurd (Op.code_injective (Prod.mk.inj heq).1) s.op_ne_constant
    · obtain ⟨type, bits, rfl, rfl⟩ := hs
      obtain ⟨s, rfl, heq⟩ := hs'
      exact absurd (Op.code_injective (Prod.mk.inj heq).1).symm s.op_ne_constant
    · obtain ⟨type, bits, rfl, rfl⟩ := hs
      obtain ⟨type', bits', rfl, heq⟩ := hs'
      obtain ⟨htype, hbits⟩ := List.cons.inj (Prod.mk.inj heq).2
      change Key.constant type bits = Key.constant type' bits'
      rw [Id.raw_injective htype, List.singleton_inj.mp hbits]
  -- One key says at most one such thing: the writings it is permitted are listed.
  · have hpermitted := he.permitted k
    generalize h.of k = ws at hpermitted
    cases hpermitted with
    | located => simp [contentOf?, Writing.declaration?, Instruction.IsInterned, Instruction.op?,
        Declaration.instruction]
    | _ => exact (List.length_filterMap_le _ _).trans (by simp)

/-! ## What is owned -/

theorem contents_eq : (e.declared.filter Instruction.IsInterned).map Instruction.content =
    h.filterMap contentOf? := by
  rw [he.declared, List.filter_filterMap, List.map_filterMap]
  refine List.filterMap_congr fun note _ => ?_
  rw [contentOf?]
  cases note.2.declaration? with
  | none => rfl
  | some i => by_cases hi : i.IsInterned <;> simp [hi]

/-- The results of the declarations with an opcode are the ids that a register takes, if it takes them
from these declarations and nowhere else. -/
theorem results_eq {β : Type} (op : Op) {f : Key × Writing → Option (β × Word)}
    (hdeclared : ∀ k d id, Piece a k (.declared d id) → (f (k, .declared d id)).map Prod.snd =
      if (d.instruction id).op? = some op then some id.raw else none)
    (hdecorated : ∀ k target location, (f (k, .decorated target location)).isNone) :
    (withOp op e.declared).filterMap (Instruction.resultId? .named) = (h.filterMap f).map Prod.snd := by
  rw [he.declared, withOp, List.filter_filterMap, List.filterMap_filterMap, List.map_filterMap]
  refine List.filterMap_congr ?_
  rintro ⟨k, w⟩ hw
  cases w with
  | declared d id =>
    rw [hdeclared k d id (he.piece hw), Writing.declaration?]
    by_cases hop : (d.instruction id).op? = some op <;>
      simp [Option.filter, hop, Declaration.resultId?_instruction]
  | decorated target location =>
    rw [Option.isNone_iff_eq_none.mp (hdecorated k target location)]
    rfl

theorem structs_eq : (withOp .typeStruct e.declared).filterMap (Instruction.resultId? .named) =
    (h.filterMap structOf?).map Prod.snd := by
  refine he.results_eq .typeStruct (fun k d id hpiece => ?_) fun k target location => ?_
  · cases hpiece with
    | shape s id =>
      rw [op?_shape]
      cases s <;> rfl
    | _ => simp [structOf?, Declaration.instruction, Instruction.op?]
  · cases k <;> rfl

theorem globals_eq : (withOp .variable e.declared).filterMap (Instruction.resultId? .named) =
    (h.filterMap globalOf?).map Prod.snd := by
  refine he.results_eq .variable (fun k d id hpiece => ?_) fun k target location => ?_
  · cases hpiece with
    | shape s id =>
      rw [op?_shape]
      cases s <;> rfl
    | _ => simp [globalOf?, Declaration.instruction, Instruction.op?]
  · cases k <;> rfl

theorem annotated_eq : e.annotated =
    (h.filterMap locatedOf?).map fun o => decoration ⟨o.2⟩ ((a.location? o.1).getD 0) := by
  rw [he.annotated, List.map_filterMap]
  refine List.filterMap_congr ?_
  rintro ⟨k, w⟩ hw
  cases he.piece hw with
  | location hlocation id => simp [Writing.decoration?, locatedOf?, hlocation]
  | _ => rfl

/-- A variable is decorated if its field has a location. -/
theorem isSome_location {o : FieldId × Word} (ho : o ∈ h.filterMap locatedOf?) :
    (a.location? o.1).isSome := by
  obtain ⟨⟨k, w⟩, hw, hread⟩ := List.mem_filterMap.mp ho
  cases he.piece hw with
  | location hlocation id =>
    obtain rfl := Option.some.inj hread
    rw [hlocation]
    rfl
  | _ => cases hread

/-- A variable that is decorated is declared. -/
theorem located_subperm : (h.filterMap locatedOf?).Subperm (h.filterMap globalOf?) := by
  refine List.subperm_of_subset he.located_once fun o ho => ?_
  obtain ⟨⟨k, w⟩, hw, hlocated⟩ := List.mem_filterMap.mp ho
  cases he.piece hw with
  | location hlocation id =>
    obtain rfl := Option.some.inj hlocated
    obtain ⟨d, hd⟩ := (he.permitted _).declared_of_decorated (Writings.mem_of.mpr hw)
    exact List.mem_filterMap.mpr ⟨_, Writings.mem_of.mp hd, rfl⟩
  | _ => cases hlocated

end Recorded

/-! ## Once -/

namespace Attributed

variable {state? : (k : Key) → Option (SlotState k.Value)} (hattributed : Attributed a h e state?)

include hattributed

/-- A type that has declared a struct is under construction, or ready as that struct. -/
theorem owns_struct {o : TypeId × Word} (ho : o ∈ h.filterMap structOf?) :
    a.IsStruct o.1 ∧ Owns (typeSlot? state?) o := by
  obtain ⟨⟨k, w⟩, hw, hread⟩ := List.mem_filterMap.mp ho
  cases hattributed.recorded.piece hw with
  | @struct type hstruct members id =>
    obtain rfl := Option.some.inj hread
    refine ⟨hstruct, ?_⟩
    have hlive : state? (.type type) = some .building ∨ ∃ v, state? (.type type) = some (.ready v) :=
      hattributed.live _ hw
    rcases hlive with hbuilding | ⟨v, hready⟩
    · exact .inl (by rw [typeSlot?, hbuilding]; rfl)
    · obtain ⟨members', hof⟩ := hattributed.finished (.type type) v hready hstruct
      -- What is ready has written one declaration, so it is this one.
      have hmem := Writings.mem_of.mpr hw
      rw [hof] at hmem
      obtain ⟨-, rfl⟩ := Writing.declared.inj (List.mem_singleton.mp hmem)
      exact .inr (by rw [typeSlot?, hready]; rfl)
  | _ => cases hread

/-- A field that has declared a variable is under construction, or ready as that variable. -/
theorem owns_global {o : FieldId × Word} (ho : o ∈ h.filterMap globalOf?) :
    a.IsStatic o.1 ∧ Owns (globalSlot? state?) o := by
  obtain ⟨⟨k, w⟩, hw, hread⟩ := List.mem_filterMap.mp ho
  have haskable := hattributed.askable _ hw
  cases hattributed.recorded.piece hw with
  | global field pointerType storage id =>
    obtain rfl := Option.some.inj hread
    refine ⟨haskable, ?_⟩
    have hlive : state? (.variable field) = some .building ∨
        ∃ v, state? (.variable field) = some (.ready v) := hattributed.live _ hw
    rcases hlive with hbuilding | ⟨v, hready⟩
    · exact .inl (by rw [globalSlot?, hbuilding]; rfl)
    · obtain ⟨pointerType', storage', hof⟩ := hattributed.finished (.variable field) v hready
      have hmem := Writings.mem_of.mpr hw
      rw [hof] at hmem
      rcases List.mem_cons.mp hmem with heq | hdecorated
      · obtain ⟨-, rfl⟩ := Writing.declared.inj heq
        exact .inr (by rw [globalSlot?, hready]; rfl)
      · obtain ⟨location, -, heq⟩ := List.mem_map.mp hdecorated
        cases heq
  | _ => cases hread

/-- Front-end types own the structs that their constructions have declared. -/
theorem structsOnce : StructsOnce a e.declared (typeSlot? state?) (h.filterMap structOf?) where
  once := hattributed.recorded.structs_once
  owners o ho := hattributed.owns_struct ho
  results := List.Perm.of_eq hattributed.recorded.structs_eq
  ready id w hstruct hw := by
    obtain ⟨slot, hslot, hw⟩ := Option.map_eq_some_iff.mp hw
    obtain ⟨v, rfl, rfl⟩ := SlotState.map_eq_ready.mp hw
    obtain ⟨members, hof⟩ := hattributed.finished (.type id) v hslot hstruct
    have hmem : (Key.type id, Writing.declared (.struct members) v) ∈ h :=
      Writings.mem_of.mp (hof ▸ List.mem_cons_self)
    exact List.mem_filterMap.mpr ⟨_, hmem, rfl⟩

/-- Fields own the variables that their constructions have declared. -/
theorem variablesOnce : VariablesOnce a e.declared e.annotated (globalSlot? state?)
    (h.filterMap globalOf?) (h.filterMap locatedOf?) where
  once := hattributed.recorded.globals_once
  owners o ho := hattributed.owns_global ho
  results := List.Perm.of_eq hattributed.recorded.globals_eq
  among := hattributed.recorded.located_subperm
  locations o ho := hattributed.recorded.isSome_location ho
  annotated := List.Perm.of_eq hattributed.recorded.annotated_eq
  ready field w hw := by
    obtain ⟨slot, hslot, hw⟩ := Option.map_eq_some_iff.mp hw
    obtain ⟨v, rfl, rfl⟩ := SlotState.map_eq_ready.mp hw
    obtain ⟨pointerType, storage, hof⟩ := hattributed.finished (.variable field) v hslot
    have hdeclared : (Key.variable field, Writing.declared (.variable pointerType storage) v.id) ∈ h :=
      Writings.mem_of.mp (hof ▸ List.mem_cons_self)
    refine ⟨List.mem_filterMap.mpr ⟨_, hdeclared, rfl⟩,
      fun hmem => hattributed.recorded.isSome_location hmem, fun hsome => ?_⟩
    obtain ⟨location, hlocation⟩ := Option.isSome_iff_exists.mp hsome
    rw [hlocation] at hof
    have hdecorated : (Key.variable field, Writing.decorated v.id location) ∈ h :=
      Writings.mem_of.mp (hof ▸ List.mem_cons_of_mem _ List.mem_cons_self)
    exact List.mem_filterMap.mpr ⟨_, hdecorated, rfl⟩

/-- Nothing is declared twice. -/
theorem declaredOnce : DeclaredOnce a (e.ids.issued < UInt32.size) e.declared e.annotated
    (typeSlot? state?) (globalSlot? state?) := by
  have hglobals := hattributed.variablesOnce
  refine ⟨?_, ⟨_, hattributed.structsOnce⟩, ⟨_, _, hglobals⟩,
    fun hfew => (hattributed.recorded.distinct hfew).nodup,
    fun hfew => hglobals.targets_nodup (hattributed.recorded.distinct hfew).nodup⟩
  rw [hattributed.recorded.contents_eq]
  exact hattributed.recorded.contents_once

end Attributed

end Registers

end ShaderLowering
