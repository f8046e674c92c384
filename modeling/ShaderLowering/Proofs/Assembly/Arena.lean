import ShaderLowering.Assembly.Edit
import ShaderLowering.Proofs.Lowering.Denotations

/-!
# Arenas stay in step

An assembly keeps types, fields and methods in three arenas, the fields of a type in the type as well, and
the names of types in an index.  `Assembly.Step` says what an edit can do to them, so that each property is
looked at once for each kind of step.

After any edits the arenas are in step (`Assembly.Consistent`): each entity bears the number of its place,
each type lists the fields that it owns in the order of their definition, and each method is named after
its owner.  What is defined stays where it is (`Assembly.Extends`), so it is found under the id that its
definition has answered with (`Assembly.Finds`).

Edits may be made in place, one arena after the other (`Assembly.InPlace`).  Nothing is done before a
refusal, so it leaves the assembly as it was (`Assembly.InPlace.perform_run`).

Ids have 32 bits.  What is said of looking up by id holds as long as there is a number for each entity
(`Assembly.HasNumbers`); what is said of places holds without that.
-/

namespace ShaderLowering

namespace Assembly

variable {a a' b : Assembly}

/-! ## What an edit can do -/

/-- What an edit can do to an assembly. -/
inductive Step : Assembly → Assembly → Prop
  | stay (a : Assembly) : Step a a
  | type (a : Assembly) (name : String) (kind : TypeKind) (attributes : List Attribute) :
    Step a { a with
      types := a.types.push ⟨.ofIndex a.types.size, name, kind, attributes, []⟩
      typeNames := (name, .ofIndex a.types.size) :: a.typeNames }
  | field (a : Assembly) {owner : TypeId} (howner : owner.index < a.types.size) (name : String)
    (type : TypeId) (attributes : List Attribute) :
    Step a { a with
      types := a.types.modify owner.index fun t => { t with fields := t.fields ++ [.ofIndex a.fields.size] }
      fields := a.fields.push ⟨.ofIndex a.fields.size, owner, name, type, attributes⟩ }
  | method (a : Assembly) {owner : TypeId} {t : TypeDef} (howner : a.type? owner = some t) (name : String)
    (returnType : Option TypeId) (parameters : List TypeId) (attributes : List Attribute) :
    Step a { a with
      methods := a.methods.push ⟨.ofIndex a.methods.size, owner, name, t.name ++ "::" ++ name, returnType,
        parameters, [], attributes, .empty⟩ }
  | body (a : Assembly) {id : MethodId} {m : MethodDef} (hm : a.method? id = some m)
    (locals : List TypeId) (code : Il.Code) :
    Step a { a with methods := a.methods.setIfInBounds id.index { m with locals, code } }

theorem step_editMethod? {α : Type} (a : Assembly) (id : MethodId) (change : MethodDef → α × MethodDef)
    (hchange : ∀ m, ∃ locals code, (change m).2 = { m with locals, code }) :
    Step a (((a.editMethod? id change).map Prod.snd).getD a) := by
  cases hm : a.method? id with
  | none =>
    rw [editMethod?, hm]
    exact .stay a
  | some m =>
    obtain ⟨locals, code, heq⟩ := hchange m
    have hstep := Step.body a hm locals code
    rw [← heq] at hstep
    rw [editMethod?, hm]
    exact hstep

/-- What an edit does is such a step. -/
theorem step_edit (a : Assembly) (e : Edit) : Step a (a.edit e) := by
  cases e with
  | type name attributes => exact .type a name .plain attributes
  | generic name => exact .type a name .genericParameter []
  | field owner name type attributes =>
    rw [edit, defineField]
    split
    · next howner => exact .field a howner name type attributes
    · exact .stay a
  | method owner name returnType parameters attributes =>
    rw [edit, defineMethod]
    cases howner : a.type? owner with
    | none => exact .stay a
    | some t => exact .method a howner name returnType parameters attributes
  | localSlot method type => exact a.step_editMethod? method _ fun m => ⟨_, _, rfl⟩
  | write method line => exact a.step_editMethod? method _ fun m => ⟨_, _, rfl⟩

/-! ## What is defined stays -/

/-- What an assembly defines, a later one defines as well, at the same place; only the fields of a type
and the locals and the code of a method may be others. -/
structure Extends (a a' : Assembly) : Prop where
  type : ∀ {i : Nat} {t : TypeDef}, a.types[i]? = some t → ∃ fields, a'.types[i]? = some { t with fields }
  field : ∀ {i : Nat} {f : FieldDef}, a.fields[i]? = some f → a'.fields[i]? = some f
  method : ∀ {i : Nat} {m : MethodDef}, a.methods[i]? = some m →
    ∃ locals code, a'.methods[i]? = some { m with locals, code }

theorem Extends.refl (a : Assembly) : a.Extends a where
  type ht := ⟨_, ht⟩
  field hf := hf
  method hm := ⟨_, _, hm⟩

theorem Extends.trans {a'' : Assembly} (h : a.Extends a') (h' : a'.Extends a'') : a.Extends a'' where
  type ht := by
    obtain ⟨_, ht'⟩ := h.type ht
    obtain ⟨fields, ht''⟩ := h'.type ht'
    exact ⟨fields, ht''⟩
  field hf := h'.field (h.field hf)
  method hm := by
    obtain ⟨_, _, hm'⟩ := h.method hm
    obtain ⟨locals, code, hm''⟩ := h'.method hm'
    exact ⟨locals, code, hm''⟩

/-- An entity keeps its place when another is pushed. -/
theorem getElem?_push_of_some {α : Type} {xs : Array α} {i : Nat} {x : α} (y : α) (h : xs[i]? = some x) :
    (xs.push y)[i]? = some x := by
  rw [Array.getElem?_push, if_neg (Array.getElem?_eq_some_iff.mp h).1.ne, h]

theorem Step.extends (h : Step a a') : a.Extends a' := by
  cases h with
  | stay => exact .refl a
  | type name kind attributes =>
    exact { Extends.refl a with type := fun ht => ⟨_, getElem?_push_of_some _ ht⟩ }
  | @field owner howner name type attributes =>
    -- The owner gets one more field at the end of its list, and nothing else changes.
    refine { Extends.refl a with type := fun {i t} ht => ?_, field := fun hf => getElem?_push_of_some _ hf }
    by_cases hi : owner.index = i
    · exact ⟨t.fields ++ [.ofIndex a.fields.size], by rw [Array.getElem?_modify, if_pos hi, ht]; rfl⟩
    · exact ⟨t.fields, by rw [Array.getElem?_modify, if_neg hi, ht]⟩
  | method howner name returnType parameters attributes =>
    exact { Extends.refl a with method := fun hm => ⟨_, _, getElem?_push_of_some _ hm⟩ }
  | @body id m hm locals code =>
    refine { Extends.refl a with method := fun {i m'} hm' => ?_ }
    by_cases hi : id.index = i
    · subst hi
      obtain rfl := Option.some.inj (hm.symm.trans hm')
      refine ⟨locals, code, ?_⟩
      rw [Array.getElem?_setIfInBounds, if_pos rfl, if_pos (Array.getElem?_eq_some_iff.mp hm).1]
    · exact ⟨m'.locals, m'.code, by rw [Array.getElem?_setIfInBounds, if_neg hi, hm']⟩

theorem extends_editAll (edits : List Edit) (a : Assembly) : a.Extends (a.editAll edits) := by
  induction edits generalizing a with
  | nil => exact .refl a
  | cons e edits ih => exact (a.step_edit e).extends.trans (ih (a.edit e))

/-! ## Places -/

section Places

variable {α : Type} {kind : Entity} {id : α → EntityId kind} {xs : Array α} {i j : Nat} {x y : α}

/-- What is at a place after a push was there before or is what has been pushed. -/
theorem getElem?_push_cases (h : (xs.push y)[i]? = some x) : xs[i]? = some x ∨ i = xs.size ∧ y = x := by
  rw [Array.getElem?_push] at h
  split at h
  · next hi => exact .inr ⟨hi, Option.some.inj h⟩
  · exact .inl h

/-- What is at a place after a change at one was there before or is the change of what was there. -/
theorem getElem?_modify_cases {f : α → α} (h : (xs.modify j f)[i]? = some x) :
    j ≠ i ∧ xs[i]? = some x ∨ j = i ∧ ∃ y, xs[i]? = some y ∧ f y = x := by
  rw [Array.getElem?_modify] at h
  split at h
  · next hi => exact .inr ⟨hi, Option.map_eq_some_iff.mp h⟩
  · next hi => exact .inl ⟨hi, h⟩

/-- Each member of an arena bears the number of its place. -/
def Positioned (id : α → EntityId kind) (xs : Array α) : Prop :=
  ∀ ⦃i : Nat⦄ ⦃x : α⦄, xs[i]? = some x → id x = .ofIndex i

theorem Positioned.push (h : Positioned id xs) (hy : id y = .ofIndex xs.size) :
    Positioned id (xs.push y) := by
  intro i x hx
  rcases getElem?_push_cases hx with hx | ⟨rfl, rfl⟩
  · exact h hx
  · exact hy

theorem Positioned.modify {f : α → α} (h : Positioned id xs) (hf : ∀ x, id (f x) = id x) :
    Positioned id (xs.modify j f) := by
  intro i x hx
  rcases getElem?_modify_cases hx with ⟨-, hx⟩ | ⟨-, y, hy, rfl⟩
  · exact h hx
  · rw [hf, h hy]

theorem Positioned.setIfInBounds (h : Positioned id xs) (hx : xs[j]? = some x) (hy : id y = id x) :
    Positioned id (xs.setIfInBounds j y) := by
  intro i z hz
  rw [Array.getElem?_setIfInBounds] at hz
  split at hz
  · next hi =>
    split at hz
    · obtain rfl := Option.some.inj hz
      rw [hy, h hx, hi]
    · cases hz
  · exact h hz

end Places

/-! ## The arenas are in step -/

/-- Each entity bears the number of its place.  A type lists the fields that it owns, in the order of their
definition, and a method is named after its owner. -/
structure Consistent (a : Assembly) : Prop where
  type_id : Positioned TypeDef.id a.types
  field_id : Positioned FieldDef.id a.fields
  method_id : Positioned MethodDef.id a.methods
  owner_lt : ∀ f ∈ a.fields, f.owner.index < a.types.size
  fields_eq : ∀ {i : Nat} {t : TypeDef}, a.types[i]? = some t →
    t.fields = (a.fields.toList.filter fun f => f.owner.index = i).map FieldDef.id
  fullName_eq : ∀ m ∈ a.methods, ∃ t, a.type? m.owner = some t ∧ m.fullName = t.name ++ "::" ++ m.name

theorem consistent_empty (name : String) : (empty name).Consistent where
  type_id _ _ h := by cases h
  field_id _ _ h := by cases h
  method_id _ _ h := by cases h
  owner_lt := nofun
  fields_eq h := by cases h
  fullName_eq := nofun

namespace Consistent

/-- The owner of a method is named as before in what an assembly grows to. -/
theorem fullName_of_extends (h : a.Consistent) (hextends : a.Extends a') {m : MethodDef}
    (hm : m ∈ a.methods) : ∃ t, a'.type? m.owner = some t ∧ m.fullName = t.name ++ "::" ++ m.name := by
  obtain ⟨t, ht, hname⟩ := h.fullName_eq m hm
  obtain ⟨fields, ht'⟩ := hextends.type ht
  exact ⟨_, ht', hname⟩

theorem step (h : a.Consistent) (hstep : Step a a') : a'.Consistent := by
  have hextends := hstep.extends
  cases hstep with
  | stay => exact h
  | type name kind attributes =>
    refine { h with
      type_id := h.type_id.push rfl
      owner_lt := fun f hf => ?_
      fields_eq := fun {i t} ht => ?_
      fullName_eq := fun m hm => h.fullName_of_extends hextends hm }
    · rw [Array.size_push]
      exact Nat.lt_succ_of_lt (h.owner_lt f hf)
    · rcases getElem?_push_cases ht with ht | ⟨rfl, rfl⟩
      · exact h.fields_eq ht
      · -- No field can own a type that is new.
        have hnone : a.fields.toList.filter (fun f => f.owner.index = a.types.size) = [] := by
          refine List.filter_eq_nil_iff.mpr fun f hf => ?_
          simpa using (h.owner_lt f (Array.mem_toList_iff.mp hf)).ne
        rw [hnone]
        rfl
  | @field owner howner name type attributes =>
    refine { h with
      type_id := h.type_id.modify fun _ => rfl
      field_id := h.field_id.push rfl
      owner_lt := fun f hf => ?_
      fields_eq := fun {i t} ht => ?_
      fullName_eq := fun m hm => h.fullName_of_extends hextends hm }
    · rw [Array.size_modify]
      rcases Array.mem_push.mp hf with hf | rfl
      · exact h.owner_lt f hf
      · exact howner
    · rw [Array.toList_push, List.filter_append, List.map_append]
      rcases getElem?_modify_cases ht with ⟨hother, ht⟩ | ⟨rfl, t', ht', rfl⟩
      · simp [hother, h.fields_eq ht]
      · simp [h.fields_eq ht']
  | method howner name returnType parameters attributes =>
    refine { h with method_id := h.method_id.push rfl, fullName_eq := fun m hm => ?_ }
    rcases Array.mem_push.mp hm with hm | rfl
    · exact h.fullName_eq m hm
    · exact ⟨_, howner, rfl⟩
  | @body id m hm locals code =>
    refine { h with method_id := h.method_id.setIfInBounds hm rfl, fullName_eq := fun m' hm' => ?_ }
    rcases Array.mem_or_eq_of_mem_setIfInBounds hm' with hm' | rfl
    · exact h.fullName_eq m' hm'
    · exact h.fullName_eq m (Array.mem_of_getElem? hm)

/-- However an assembly is edited, it stays consistent. -/
theorem editAll (h : a.Consistent) (edits : List Edit) : (a.editAll edits).Consistent := by
  induction edits generalizing a with
  | nil => exact h
  | cons e edits ih => exact ih (h.step (a.step_edit e))

end Consistent

/-! ## Numbers of 32 bits -/

/-- There is a number of 32 bits for each entity. -/
structure HasNumbers (a : Assembly) : Prop where
  types : a.types.size ≤ UInt32.size
  fields : a.fields.size ≤ UInt32.size
  methods : a.methods.size ≤ UInt32.size

/-- With numbers for all that is in an arena, what is at a place is found under the number of the place. -/
theorem getElem?_index_ofIndex {α : Type} {kind : Entity} {xs : Array α} {i : Nat} {x : α}
    (hsize : xs.size ≤ UInt32.size) (h : xs[i]? = some x) :
    xs[(EntityId.ofIndex i : EntityId kind).index]? = some x := by
  rw [EntityId.index_ofIndex ((Array.getElem?_eq_some_iff.mp h).1.trans_le hsize), h]

namespace Consistent

variable (h : a.Consistent) (hnumbers : a.HasNumbers)

include h hnumbers

/-- A field is found under its own number. -/
theorem field?_id {f : FieldDef} (hf : f ∈ a.fields) : a.field? f.id = some f := by
  obtain ⟨i, hi⟩ := Array.getElem?_of_mem hf
  rw [field?, h.field_id hi]
  exact getElem?_index_ofIndex hnumbers.fields hi

/-- A type owns what names its number as the owner. -/
theorem owner_eq_iff {i : Nat} {t : TypeDef} (ht : a.types[i]? = some t) {owner : TypeId} :
    owner = t.id ↔ owner.index = i := by
  have hi : (EntityId.ofIndex i : TypeId).index = i :=
    EntityId.index_ofIndex ((Array.getElem?_eq_some_iff.mp ht).1.trans_le hnumbers.types)
  rw [h.type_id ht]
  refine ⟨fun howner => ?_, fun howner => EntityId.index_injective ?_⟩
  · rw [howner, hi]
  · rw [howner, hi]

/-- Fields have ascending numbers. -/
theorem fields_ascending : a.fields.toList.Pairwise fun f g => f.id.raw < g.id.raw := by
  have hindex : ∀ k (hk : k < a.fields.toList.length), (a.fields.toList[k]).id.index = k := by
    intro k hk
    have hget : a.fields[k]? = some a.fields.toList[k] := by
      rw [← Array.getElem?_toList, List.getElem?_eq_getElem hk]
    rw [h.field_id hget, EntityId.index_ofIndex (Nat.lt_of_lt_of_le hk hnumbers.fields)]
  refine List.pairwise_iff_getElem.mpr fun i j hi hj hij => ?_
  rw [UInt32.lt_iff_toNat_lt]
  change (a.fields.toList[i]).id.index < (a.fields.toList[j]).id.index
  rwa [hindex i hi, hindex j hj]

end Consistent

/-- A type lists the fields that it owns, in ascending order, so each field is listed once; an instance of
the type consists of those that are not static. -/
structure FieldsListed (a : Assembly) : Prop where
  fields_eq : ∀ t ∈ a.types, t.fields = (a.fields.toList.filter fun f => f.owner = t.id).map FieldDef.id
  ascending : ∀ t ∈ a.types, t.fields.Pairwise fun id id' => id.raw < id'.raw
  once : ∀ f ∈ a.fields, ∃! i : Nat, ∃ t : TypeDef, a.types[i]? = some t ∧ f.id ∈ t.fields
  instanceFields_eq : ∀ t ∈ a.types,
    a.instanceFields t = a.fields.toList.filter fun f => f.owner = t.id ∧ f.isStatic = false

/-- Fields are listed in a consistent assembly, if there are numbers for all. -/
theorem Consistent.fieldsListed (h : a.Consistent) (hnumbers : a.HasNumbers) : a.FieldsListed := by
  have hfields : ∀ t ∈ a.types,
      t.fields = (a.fields.toList.filter fun f => f.owner = t.id).map FieldDef.id := by
    intro t ht
    obtain ⟨i, hi⟩ := Array.getElem?_of_mem ht
    simp only [h.owner_eq_iff hnumbers hi]
    exact h.fields_eq hi
  refine ⟨hfields, fun t ht => ?_, fun f hf => ?_, fun t ht => ?_⟩
  · rw [hfields t ht]
    exact ((h.fields_ascending hnumbers).filter _).map _ fun _ _ hlt => hlt
  · have hmem : ∀ {i : Nat} {t : TypeDef}, a.types[i]? = some t → (f.id ∈ t.fields ↔ f.owner.index = i) := by
      intro i t ht
      rw [h.fields_eq ht, List.mem_map]
      constructor
      · rintro ⟨g, hg, hid⟩
        obtain ⟨hg, howner⟩ := List.mem_filter.mp hg
        -- A field that bears the same number is the same field.
        have hsame := h.field?_id hnumbers (Array.mem_toList_iff.mp hg)
        rw [hid, h.field?_id hnumbers hf] at hsame
        rw [Option.some.inj hsame]
        exact of_decide_eq_true howner
      · exact fun howner => ⟨f, List.mem_filter.mpr ⟨Array.mem_toList_iff.mpr hf, decide_eq_true howner⟩, rfl⟩
    have hlt := Array.getElem?_eq_getElem (h.owner_lt f hf)
    exact ⟨f.owner.index, ⟨_, hlt, (hmem hlt).mpr rfl⟩, fun i ⟨t, ht, hi⟩ => ((hmem ht).mp hi).symm⟩
  · have hfound : ((a.fields.toList.filter fun f => f.owner = t.id).map FieldDef.id).filterMap a.field? =
        a.fields.toList.filter fun f => f.owner = t.id := by
      rw [List.filterMap_map]
      refine (List.filterMap_congr fun f hf => ?_).trans List.filterMap_some
      exact h.field?_id hnumbers (Array.mem_toList_iff.mp (List.mem_of_mem_filter hf))
    rw [instanceFields, hfields t ht, hfound, List.filter_filter]
    refine List.filter_congr fun f _ => ?_
    cases f.isStatic <;> simp

/-! ## Names -/

/-- The type that an edit defines. -/
def typeDefined? : Edit → Option (String × TypeKind × List Attribute)
  | .type name attributes => some (name, .plain, attributes)
  | .generic name => some (name, .genericParameter, [])
  | _ => none

/-- The names, kinds and attributes of the types of an assembly, in the order of their definition. -/
def typeHeads (a : Assembly) : List (String × TypeKind × List Attribute) :=
  a.types.toList.map fun t => (t.name, t.kind, t.attributes)

theorem Extends.typeHeads_eq (h : a.Extends a') (hsize : a'.types.size = a.types.size) :
    a'.typeHeads = a.typeHeads := by
  refine List.ext_getElem? fun i => ?_
  rw [typeHeads, typeHeads, List.getElem?_map, List.getElem?_map, Array.getElem?_toList,
    Array.getElem?_toList]
  cases ht : a.types[i]? with
  | none => rw [Array.getElem?_eq_none (hsize ▸ Array.getElem?_eq_none_iff.mp ht)]
  | some t =>
    obtain ⟨fields, ht'⟩ := h.type ht
    rw [ht']
    rfl

theorem typeHeads_edit (a : Assembly) (e : Edit) :
    (a.edit e).typeHeads = a.typeHeads ++ (typeDefined? e).toList := by
  -- Any other edit leaves the number of types as it is, and so their heads.
  have hsame : typeDefined? e = none → (a.edit e).types.size = a.types.size →
      (a.edit e).typeHeads = a.typeHeads ++ (typeDefined? e).toList := by
    intro hnone hsize
    rw [hnone, Option.toList_none, List.append_nil, (a.step_edit e).extends.typeHeads_eq hsize]
  cases e with
  | type name attributes => simp [typeHeads, edit, defineType, addType, typeDefined?]
  | generic name => simp [typeHeads, edit, defineGeneric, addType, typeDefined?]
  | field owner name type attributes =>
    refine hsame rfl ?_
    rw [edit, defineField]
    split
    · exact Array.size_modify
    · rfl
  | method owner name returnType parameters attributes =>
    refine hsame rfl ?_
    rw [edit, defineMethod]
    cases a.type? owner <;> rfl
  | localSlot method type | write method line =>
    refine hsame rfl ?_
    rw [edit, editMethod?]
    cases a.method? method <;> rfl

/-- The types of an assembly are those that edits have defined, in order. -/
theorem typeHeads_editAll (a : Assembly) (edits : List Edit) :
    (a.editAll edits).typeHeads = a.typeHeads ++ edits.filterMap typeDefined? := by
  induction edits generalizing a with
  | nil => exact (List.append_nil _).symm
  | cons e edits ih =>
    have hrest : (a.editAll (e :: edits)).typeHeads = _ := ih (a.edit e)
    rw [hrest, typeHeads_edit, List.append_assoc]
    cases htype : typeDefined? e <;> simp [htype]

/-- An assembly that is edited can be built. -/
theorem Built.edit (h : a.Built) (e : Edit) : (a.edit e).Built := by
  cases e with
  | type name attributes => exact h.addType name .plain attributes
  | generic name => exact h.addType name .genericParameter []
  | field owner name type attributes =>
    rw [Assembly.edit]
    cases hfield : a.defineField owner name type attributes with
    | none => exact h
    | some r => exact h.defineField owner type name attributes hfield
  | method owner name returnType parameters attributes =>
    rw [Assembly.edit]
    cases hmethod : a.defineMethod owner name returnType parameters attributes with
    | none => exact h
    | some r => exact h.defineMethod owner name returnType parameters attributes hmethod
  | localSlot method type =>
    rw [Assembly.edit]
    cases hedit : a.editMethod? method fun m => m.addLocal type with
    | none => exact h
    | some r => exact h.addLocal method type hedit
  | write method line =>
    rw [Assembly.edit]
    cases hedit : a.editMethod? method fun m => ((), m.pushInstruction line.instruction) with
    | none => exact h
    | some r => exact h.push method line.instruction hedit

theorem Built.editAll (h : a.Built) (edits : List Edit) : (a.editAll edits).Built := by
  induction edits generalizing a with
  | nil => exact h
  | cons e edits ih => exact ih (h.edit e)

/-! ## Answers -/

/-- What an edit that is not refused answers with. -/
inductive Answer where
  | type (id : TypeId)
  | field (id : FieldId)
  | method (id : MethodId)
  | slot (number : Il.Slot)
  | done
  deriving DecidableEq, Repr

/-- The answer to an edit; there is none if it is refused. -/
def answer? (a : Assembly) : Edit → Option Answer
  | .type name attributes => some (.type (a.defineType name attributes).1)
  | .generic name => some (.type (a.defineGeneric name).1)
  | .field owner name type attributes =>
    (a.defineField owner name type attributes).map fun r => .field r.1
  | .method owner name returnType parameters attributes =>
    (a.defineMethod owner name returnType parameters attributes).map fun r => .method r.1
  | .localSlot method type => (a.editMethod? method fun m => m.addLocal type).map fun r => .slot r.1
  | .write method line =>
    (a.editMethod? method fun m => ((), m.pushInstruction line.instruction)).map fun _ => .done

/-- An edit is stray where there is no owner or no method under the id that it names. -/
def Stray (a : Assembly) : Edit → Prop
  | .type .. | .generic .. => False
  | .field owner .. | .method owner .. => a.types.size ≤ owner.index
  | .localSlot method _ | .write method _ => a.methods.size ≤ method.index

/-- Stray edits are refused, and no others. -/
theorem answer?_eq_none_iff {e : Edit} : a.answer? e = none ↔ a.Stray e := by
  cases e with
  | type name attributes | generic name => exact ⟨nofun, False.elim⟩
  | field owner name type attributes =>
    rw [answer?, Option.map_eq_none_iff, defineField, ite_eq_right_iff]
    exact ⟨fun h => Nat.le_of_not_lt fun hlt => (nomatch h hlt), fun h hlt => absurd hlt h.not_gt⟩
  | method owner name returnType parameters attributes =>
    rw [answer?, Option.map_eq_none_iff, defineMethod, Option.map_eq_none_iff]
    exact Array.getElem?_eq_none_iff
  | localSlot method type | write method line =>
    rw [answer?, Option.map_eq_none_iff, editMethod?, Option.map_eq_none_iff]
    exact Array.getElem?_eq_none_iff

/-- What is refused changes nothing. -/
theorem edit_of_answer?_eq_none {e : Edit} (h : a.answer? e = none) : a.edit e = a := by
  cases e with
  | type name attributes | generic name => cases h
  | field owner name type attributes | method owner name returnType parameters attributes
  | localSlot method type | write method line =>
    rw [edit, Option.map_eq_none_iff.mp h]
    rfl

/-! ## Edits in place -/

/-- What is done to an assembly in place.  A refusal does not take back what was done before it. -/
abbrev InPlace := OptionT (StateM Assembly)

namespace InPlace

/-- Adds a type and its name. -/
def addType (name : String) (kind : TypeKind) (attributes : List Attribute) : InPlace TypeId := do
  let id := EntityId.ofIndex (← get).types.size
  modify fun a => { a with typeNames := (name, id) :: a.typeNames }
  modify fun a => { a with types := a.types.push ⟨id, name, kind, attributes, []⟩ }
  return id

/-- Lists a field in its owner, then adds it. -/
def addField (owner : TypeId) (name : String) (type : TypeId) (attributes : List Attribute) :
    InPlace FieldId := do
  let id := EntityId.ofIndex (← get).fields.size
  let some _ := (← get).type? owner | failure
  modify fun a =>
    { a with types := a.types.modify owner.index fun t => { t with fields := t.fields ++ [id] } }
  modify fun a => { a with fields := a.fields.push ⟨id, owner, name, type, attributes⟩ }
  return id

/-- Adds a method, named after its owner. -/
def addMethod (owner : TypeId) (name : String) (returnType : Option TypeId) (parameters : List TypeId)
    (attributes : List Attribute) : InPlace MethodId := do
  let id := EntityId.ofIndex (← get).methods.size
  let some t := (← get).type? owner | failure
  let fullName := t.name ++ "::" ++ name
  modify fun a => { a with
    methods := a.methods.push ⟨id, owner, name, fullName, returnType, parameters, [], attributes, .empty⟩ }
  return id

/-- Changes a method. -/
def editMethod {α : Type} (id : MethodId) (change : MethodDef → α × MethodDef) : InPlace α := do
  let some m := (← get).method? id | failure
  modify fun a => { a with methods := a.methods.setIfInBounds id.index (change m).2 }
  return (change m).1

/-- Makes an edit. -/
def perform : Edit → InPlace Answer
  | .type name attributes => Answer.type <$> addType name .plain attributes
  | .generic name => Answer.type <$> addType name .genericParameter []
  | .field owner name type attributes => Answer.field <$> addField owner name type attributes
  | .method owner name returnType parameters attributes =>
    Answer.method <$> addMethod owner name returnType parameters attributes
  | .localSlot method type => Answer.slot <$> editMethod method fun m => m.addLocal type
  | .write method line =>
    (fun _ => Answer.done) <$> editMethod method fun m => ((), m.pushInstruction line.instruction)

variable {α : Type}

theorem run_get_bind (f : Assembly → InPlace α) (a : Assembly) : (get >>= f).run a = (f a).run a := rfl

theorem addField_run (a : Assembly) (owner : TypeId) (name : String) (type : TypeId)
    (attributes : List Attribute) : (addField owner name type attributes).run a =
      ((a.defineField owner name type attributes).map Prod.fst,
        ((a.defineField owner name type attributes).map Prod.snd).getD a) := by
  rw [addField, run_get_bind, run_get_bind, defineField]
  cases ht : a.type? owner with
  | none =>
    rw [if_neg (Nat.not_lt.mpr (Array.getElem?_eq_none_iff.mp ht))]
    rfl
  | some t =>
    rw [if_pos (Array.getElem?_eq_some_iff.mp ht).1]
    rfl

theorem addMethod_run (a : Assembly) (owner : TypeId) (name : String) (returnType : Option TypeId)
    (parameters : List TypeId) (attributes : List Attribute) :
    (addMethod owner name returnType parameters attributes).run a =
      ((a.defineMethod owner name returnType parameters attributes).map Prod.fst,
        ((a.defineMethod owner name returnType parameters attributes).map Prod.snd).getD a) := by
  rw [addMethod, run_get_bind, run_get_bind, defineMethod]
  cases a.type? owner <;> rfl

theorem editMethod_run (a : Assembly) (id : MethodId) (change : MethodDef → α × MethodDef) :
    (editMethod id change).run a =
      ((a.editMethod? id change).map Prod.fst, ((a.editMethod? id change).map Prod.snd).getD a) := by
  rw [editMethod, run_get_bind, editMethod?]
  cases a.method? id <;> rfl

theorem run_map {β : Type} (f : α → β) (x : InPlace α) (a : Assembly) :
    (f <$> x).run a = ((x.run a).1.map f, (x.run a).2) := by
  rw [OptionT.run_map]
  rfl

/-- An edit in place leaves the edited assembly, also where it is refused. -/
theorem perform_run (a : Assembly) (e : Edit) : (perform e).run a = (a.answer? e, a.edit e) := by
  cases e with
  | type name attributes | generic name => rfl
  | field owner name type attributes =>
    rw [perform, run_map, addField_run, answer?, edit, Option.map_map]
    rfl
  | method owner name returnType parameters attributes =>
    rw [perform, run_map, addMethod_run, answer?, edit, Option.map_map]
    rfl
  | localSlot method type | write method line =>
    rw [perform, run_map, editMethod_run, answer?, edit, Option.map_map]
    rfl

end InPlace

/-! ## What is found under an id -/

/-- An assembly has under the id of an answer what the edit has defined; an edit of a body leaves its method
where it is. -/
def Finds (a : Assembly) : Edit → Answer → Prop
  | .type name attributes, .type id => ∃ fields, a.type? id = some ⟨id, name, .plain, attributes, fields⟩
  | .generic name, .type id => ∃ fields, a.type? id = some ⟨id, name, .genericParameter, [], fields⟩
  | .field owner name type attributes, .field id => a.field? id = some ⟨id, owner, name, type, attributes⟩
  | .method owner name returnType parameters attributes, .method id =>
    ∃ t locals code, a.type? owner = some t ∧ a.method? id =
      some ⟨id, owner, name, t.name ++ "::" ++ name, returnType, parameters, locals, attributes, code⟩
  | .localSlot method _, .slot _ | .write method _, .done => ∃ m, a.method? method = some m ∧ m.id = method
  | _, _ => False

theorem getElem?_push_size {α : Type} (xs : Array α) (x : α) : (xs.push x)[xs.size]? = some x := by
  rw [Array.getElem?_push, if_pos rfl]

/-- A method stays under its id in what the assembly grows to. -/
theorem method?_of_extends (h : a.Consistent) {id : MethodId} {m : MethodDef} (hm : a.method? id = some m)
    (hextends : a.Extends b) : ∃ m, b.method? id = some m ∧ m.id = id := by
  obtain ⟨locals, code, hfound⟩ := hextends.method hm
  exact ⟨_, hfound, (h.method_id hm).trans id.ofIndex_index⟩

/-- What an edit has defined is found under the id of its answer in what the assembly grows to. -/
theorem finds_of_answer? (h : a.Consistent) {e : Edit} {answer : Answer}
    (hanswer : a.answer? e = some answer) (hextends : (a.edit e).Extends b) (hnumbers : b.HasNumbers) :
    b.Finds e answer := by
  have hbefore := (a.step_edit e).extends.trans hextends
  cases e with
  | type name attributes | generic name =>
    obtain rfl := Option.some.inj hanswer
    -- Types and methods may have grown since, which is why their fields, locals and code are not said.
    obtain ⟨fields, hfound⟩ := hextends.type (getElem?_push_size a.types _)
    exact ⟨fields, getElem?_index_ofIndex hnumbers.types hfound⟩
  | field owner name type attributes =>
    obtain ⟨⟨id, a'⟩, hfield, rfl⟩ := Option.map_eq_some_iff.mp hanswer
    rw [edit, hfield] at hextends
    rw [defineField] at hfield
    split at hfield
    · obtain ⟨rfl, rfl⟩ := Prod.mk.inj (Option.some.inj hfield)
      have hfound := hextends.field (getElem?_push_size a.fields _)
      exact getElem?_index_ofIndex hnumbers.fields hfound
    · cases hfield
  | method owner name returnType parameters attributes =>
    obtain ⟨⟨id, a'⟩, hmethod, rfl⟩ := Option.map_eq_some_iff.mp hanswer
    rw [edit, hmethod] at hextends
    obtain ⟨t, ht, heq⟩ := Option.map_eq_some_iff.mp hmethod
    obtain ⟨rfl, rfl⟩ := Prod.mk.inj heq
    obtain ⟨fields, howner⟩ := hbefore.type ht
    obtain ⟨locals, code, hfound⟩ := hextends.method (getElem?_push_size a.methods _)
    exact ⟨_, locals, code, howner, getElem?_index_ofIndex hnumbers.methods hfound⟩
  | localSlot method type | write method line =>
    obtain ⟨r, hedit, rfl⟩ := Option.map_eq_some_iff.mp hanswer
    obtain ⟨m, hm, -⟩ := Option.map_eq_some_iff.mp hedit
    exact method?_of_extends h hm hbefore

/-- Whatever edits an assembly is made by, its arenas are in step, and its types are those that were defined,
in order.  With numbers for all entities, each type lists the fields that it owns, and a name leads to the
type that was defined last under it.  An edit that is refused is a stray one and leaves all as it was; what
another has defined is found, from then on, under the id that it answered with. -/
theorem arenas_in_step (name : String) (edits : List Edit) :
    let a := (empty name).editAll edits
    a.Consistent ∧ a.typeHeads = edits.filterMap typeDefined? ∧
      (a.HasNumbers → a.FieldsListed ∧ ∀ n, a.findType? n = a.newest? n) ∧
      ∀ before e after, edits = before ++ e :: after →
        let b := (empty name).editAll before
        ∃ answer?, (InPlace.perform e).run b = (answer?, b.edit e) ∧
          (answer? = none ↔ b.Stray e) ∧ (answer? = none → b.edit e = b) ∧
          ∀ answer, answer? = some answer → a.HasNumbers → a.Finds e answer := by
  intro a
  have hconsistent : a.Consistent := (consistent_empty name).editAll edits
  refine ⟨hconsistent, (empty name).typeHeads_editAll edits, fun hnumbers => ⟨?_, ?_⟩, ?_⟩
  · exact hconsistent.fieldsListed hnumbers
  · exact ((Built.empty name).editAll edits).findType?_eq hnumbers.types
  · rintro before e after rfl b
    refine ⟨b.answer? e, InPlace.perform_run b e, answer?_eq_none_iff, edit_of_answer?_eq_none, ?_⟩
    intro answer hanswer hnumbers
    -- What comes after the edit only extends what it leaves.
    have hwhole : a = (b.edit e).editAll after := List.foldl_append
    have hextends : (b.edit e).Extends a := hwhole ▸ extends_editAll after (b.edit e)
    exact finds_of_answer? ((consistent_empty name).editAll before) hanswer hextends hnumbers

section Workshop

/-- Two types of one name, a placeholder and a static field; one field has an owner that is nowhere, and so
has a method. -/
def workshopEdits : List Edit :=
  [.type "Shader" [], .generic "T", .field ⟨0⟩ "Color" ⟨7⟩ [.static], .field ⟨9⟩ "Lost" ⟨0⟩ [],
    .type "Shader" [.representation none], .method ⟨0⟩ "Main" none [⟨1⟩] [], .field ⟨2⟩ "Width" ⟨1⟩ [],
    .field ⟨0⟩ "Value" ⟨0⟩ [], .method ⟨3⟩ "Lost" none [] [], .localSlot ⟨0⟩ ⟨1⟩,
    .write ⟨0⟩ (.statement .ret), .write ⟨4⟩ (.statement .ret)]

def workshop : Assembly :=
  (empty "Workshop").editAll workshopEdits

/-- The field `Value` is found, the second `Shader` is the one that answers to its name, and the first edit
of a stranger is refused. -/
theorem workshop_in_step :
    workshop.HasNumbers ∧ workshop.FieldsListed ∧ workshop.findType? "Shader" = workshop.newest? "Shader" ∧
      workshop.field? ⟨2⟩ = some ⟨⟨2⟩, ⟨0⟩, "Value", ⟨0⟩, []⟩ ∧
      ((empty "Workshop").editAll (workshopEdits.take 3)).Stray (.field ⟨9⟩ "Lost" ⟨0⟩ []) := by
  have hnumbers : workshop.HasNumbers := ⟨by decide, by decide, by decide⟩
  obtain ⟨-, -, hlisted, hedit⟩ := arenas_in_step "Workshop" workshopEdits
  obtain ⟨answer?, hrun, -, -, hfinds⟩ := hedit (workshopEdits.take 7) (.field ⟨0⟩ "Value" ⟨0⟩ [])
    (workshopEdits.drop 8) rfl
  obtain ⟨refused?, hrefused, hstray, -⟩ := hedit (workshopEdits.take 3) (.field ⟨9⟩ "Lost" ⟨0⟩ [])
    (workshopEdits.drop 4) rfl
  refine ⟨hnumbers, (hlisted hnumbers).1, (hlisted hnumbers).2 _, ?_, ?_⟩
  · exact hfinds (.field ⟨2⟩) (Prod.mk.inj hrun).1.symm hnumbers
  · exact hstray.mp (Prod.mk.inj hrefused).1.symm

end Workshop

end Assembly

end ShaderLowering
