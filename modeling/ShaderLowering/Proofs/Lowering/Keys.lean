import ShaderLowering.Assembly.Builder
import ShaderLowering.Proofs.Lowering.Constructible

/-!
# Keys of functions

In an assembly that is built by definitions, methods have the numbers of their places
(`Built.numbered`), so a key that names a method leads to it.  The keys that a lowering meets are those
of methods and those of calls (`FunctionKey.Obtained`).  Such a key has a type for each parameter of its
method, and that type is what the substitution of the key makes of the declared one
(`FunctionKey.Obtained.apply_eq`): the types of incoming parameters, which are those of the key, and the
types of the slots that they go to, which are substituted, are the same.
-/

namespace ShaderLowering

/-! ## Assemblies that can be built -/

namespace Assembly

/-- The methods of an assembly have the numbers of their places. -/
def Numbered (a : Assembly) : Prop :=
  ∀ id m, a.method? id = some m → m.id = id

/-- An assembly comes about by definitions, one after another. -/
inductive Built : Assembly → Prop
  | empty (name : String) : Built (empty name)
  | addType {a : Assembly} (h : Built a) (name : String) (kind : TypeKind)
      (attributes : List Attribute) : Built (a.addType name kind attributes).2
  | defineField {a a' : Assembly} {id : FieldId} (h : Built a) (owner type : TypeId) (name : String)
      (attributes : List Attribute)
      (hfield : a.defineField owner name type attributes = some (id, a')) : Built a'
  | defineMethod {a a' : Assembly} {id : MethodId} (h : Built a) (owner : TypeId) (name : String)
      (returnType : Option TypeId) (parameters : List TypeId) (attributes : List Attribute)
      (hmethod : a.defineMethod owner name returnType parameters attributes = some (id, a')) : Built a'
  | addLocal {a a' : Assembly} {slot : Il.Slot} (h : Built a) (id : MethodId) (type : TypeId)
      (hedit : a.editMethod? id (fun m => m.addLocal type) = some (slot, a')) : Built a'
  | push {a a' : Assembly} (h : Built a) (id : MethodId) (i : Il.Instruction)
      (hedit : a.editMethod? id (fun m => ((), m.pushInstruction i)) = some ((), a')) : Built a'

/-- A method that is changed keeps its number. -/
theorem Numbered.editMethod? {a a' : Assembly} {α : Type} {id : MethodId}
    {edit : MethodDef → α × MethodDef} {answer : α} (h : a.Numbered)
    (hedit : a.editMethod? id edit = some (answer, a')) (hkeeps : ∀ m, (edit m).2.id = m.id) :
    a'.Numbered := by
  obtain ⟨m, hm, heq⟩ := Option.map_eq_some_iff.mp hedit
  obtain rfl := (Prod.mk.inj heq).2
  intro id' m' hm'
  rw [method?, Array.getElem?_setIfInBounds] at hm'
  split at hm'
  · next hsame =>
    split at hm'
    · obtain rfl := Option.some.inj hm'
      rw [hkeeps, h id m hm, EntityId.index_injective hsame]
    · cases hm'
  · exact h id' m' hm'

/-- In an assembly that can be built methods have the numbers of their places. -/
theorem Built.numbered {a : Assembly} (h : a.Built) : a.Numbered := by
  induction h with
  | empty name => exact fun id m hm => by simp [method?, Assembly.empty] at hm
  | addType _ name kind attributes ih => exact ih
  | @defineField a a' id _ owner type name attributes hfield ih =>
    unfold Assembly.defineField at hfield
    split at hfield
    · obtain rfl := (Prod.mk.inj (Option.some.inj hfield)).2
      exact ih
    · cases hfield
  | @defineMethod a a' id _ owner name returnType parameters attributes hmethod ih =>
    obtain ⟨t, -, heq⟩ := Option.map_eq_some_iff.mp hmethod
    obtain rfl := (Prod.mk.inj heq).2
    intro id' m hm
    rw [method?, Array.getElem?_push] at hm
    split at hm
    -- The new method gets the number of the last place.
    · next hlast =>
      obtain rfl := Option.some.inj hm
      change EntityId.ofIndex a.methods.size = id'
      rw [← hlast, EntityId.ofIndex_index]
    · exact ih id' m hm
  | addLocal _ id type hedit ih => exact ih.editMethod? hedit fun _ => rfl
  | push _ id i hedit ih => exact ih.editMethod? hedit fun _ => rfl

end Assembly

/-! ## Substitutions -/

namespace Specialization

variable {a : Assembly} {m : MethodDef} {s s' : Specialization} {declared concrete g c : TypeId}
  {pairs : List (TypeId × TypeId)}

/-- Only placeholders are bound. -/
def Proper (a : Assembly) (s : Specialization) : Prop :=
  ∀ g c, s.lookup? g = some c → ∃ t, a.type? g = some t ∧ t.isGeneric = true

theorem proper_empty : Proper a empty :=
  fun g c hg => by simp [empty, lookup?] at hg

theorem lookup?_concat (s : Specialization) (declared concrete g : TypeId) :
    (⟨s.bindings ++ [(declared, concrete)]⟩ : Specialization).lookup? g =
      (s.lookup? g).or (if g = declared then some concrete else none) := by
  rw [lookup?, List.lookup_append, lookup?, List.lookup_cons, List.lookup_nil]
  congr 1
  by_cases h : g = declared
  · simp [h]
  · simp [h, beq_eq_false_iff_ne.mpr h]

/-- To match one parameter binds it if it is a placeholder and keeps what is bound. -/
theorem bindOne_eq_ok (h : bindOne a m s declared concrete = .ok s') (hproper : s.Proper a) :
    s'.Proper a ∧ (∀ g c, s.lookup? g = some c → s'.lookup? g = some c) ∧
      ∃ t, a.type? declared = some t ∧
        (t.isGeneric = true → s'.lookup? declared = some concrete) := by
  unfold bindOne at h
  split at h
  · cases h
  · next t ht =>
    split at h
    · next hgeneric =>
      split at h
      · next hnew =>
        obtain rfl := Except.ok.inj h
        refine ⟨fun g c hg => ?_, fun g c hg => ?_, t, ht, fun _ => ?_⟩
        -- What was bound before is found first.
        · rw [lookup?_concat] at hg
          rcases Option.or_eq_some_iff.mp hg with hold | ⟨-, hold⟩
          · exact hproper g c hold
          · split at hold
            · next heq => exact ⟨t, heq ▸ ht, hgeneric⟩
            · cases hold
        · rw [lookup?_concat, hg, Option.some_or]
        · rw [lookup?_concat, hnew, Option.none_or, if_pos rfl]
      · next bound hbound =>
        split at h
        · next hsame =>
          obtain rfl := Except.ok.inj h
          exact ⟨hproper, fun _ _ hg => hg, t, ht, fun _ => hsame ▸ hbound⟩
        · cases h
    · next hplain =>
      obtain rfl := Except.ok.inj h
      exact ⟨hproper, fun _ _ hg => hg, t, ht, fun hgeneric => absurd hgeneric hplain⟩

/-- To match parameters binds those that are placeholders and keeps what is bound. -/
theorem bindAll_eq_ok (h : bindAll a m s pairs = .ok s') (hproper : s.Proper a) :
    s'.Proper a ∧ (∀ g c, s.lookup? g = some c → s'.lookup? g = some c) ∧
      ∀ pair ∈ pairs, ∃ t, a.type? pair.1 = some t ∧
        (t.isGeneric = true → s'.lookup? pair.1 = some pair.2) := by
  induction pairs generalizing s with
  | nil =>
    obtain rfl := Except.ok.inj h
    exact ⟨hproper, fun _ _ hg => hg, nofun⟩
  | cons pair rest ih =>
    rw [bindAll] at h
    split at h
    · next s₁ hone =>
      obtain ⟨hproper₁, hkept₁, t, ht, hbound⟩ := bindOne_eq_ok hone hproper
      obtain ⟨hproper', hkept, hrest⟩ := ih h hproper₁
      refine ⟨hproper', fun g c hg => hkept g c (hkept₁ g c hg), fun pair' hpair' => ?_⟩
      rcases List.mem_cons.mp hpair' with rfl | hpair'
      · exact ⟨t, ht, fun hgeneric => hkept _ _ (hbound hgeneric)⟩
      · exact hrest pair' hpair'
    · cases h

/-- The substitution of a key makes of a declared parameter type the one of the key, provided that the
two are equal unless the declared one is a placeholder. -/
theorem apply_of_bind {key : FunctionKey} (h : bind a m key = .ok s) {pair : TypeId × TypeId}
    (hpair : pair ∈ m.effectiveParameters.zip key.parameters)
    (hplain : ∀ t, a.type? pair.1 = some t → t.isGeneric = false → pair.2 = pair.1) :
    s.apply pair.1 = pair.2 := by
  obtain ⟨hproper, -, hall⟩ := bindAll_eq_ok h proper_empty
  obtain ⟨t, ht, hbound⟩ := hall pair hpair
  rw [apply]
  cases hgeneric : t.isGeneric with
  | true => rw [hbound hgeneric, Option.getD_some]
  | false =>
    cases hlookup : s.lookup? pair.1 with
    | none => exact (hplain t ht hgeneric).symm
    | some c =>
      obtain ⟨t', ht', hgeneric'⟩ := hproper _ _ hlookup
      obtain rfl := Option.some.inj (ht.symm.trans ht')
      rw [hgeneric] at hgeneric'
      cases hgeneric'

end Specialization

/-! ## Keys that are met -/

/-- A function key is that of a method or that of a call. -/
inductive FunctionKey.Obtained (a : Assembly) : FunctionKey → Prop
  | ofMethod {id : MethodId} {m : MethodDef} (hm : a.method? id = some m) :
      Obtained a (FunctionKey.ofMethod m)
  | call {p : Specialized} {wire : UInt64} {slots : List Il.Slot} {callee : FunctionKey}
      (hcallee : p.calleeKey? a wire slots = some callee) : Obtained a callee

/-- Such a key has a type for each parameter of its method. -/
theorem FunctionKey.Obtained.length {a : Assembly} (hnumbered : a.Numbered) {key : FunctionKey}
    (h : key.Obtained a) {m : MethodDef} (hm : a.method? key.method = some m) :
    key.parameters.length = m.effectiveParameters.length := by
  cases h with
  | @ofMethod id m' hm' =>
    rw [FunctionKey.ofMethod, hnumbered id m' hm', hm'] at hm
    obtain rfl := Option.some.inj hm
    rfl
  | call hcallee =>
    obtain ⟨target, htarget, hid, -, hlength⟩ := Specialized.target?_of_calleeKey? hcallee
    obtain ⟨id, -, hfound⟩ := Option.bind_eq_some_iff.mp htarget
    rw [hid, hnumbered id target hfound, hfound] at hm
    obtain rfl := Option.some.inj hm
    exact hlength

/-- Where a parameter is no placeholder, such a key has the declared type. -/
theorem FunctionKey.Obtained.eq_of_plain {a : Assembly} (hnumbered : a.Numbered) {key : FunctionKey}
    (h : key.Obtained a) {m : MethodDef} (hm : a.method? key.method = some m)
    {pair : TypeId × TypeId} (hpair : pair ∈ m.effectiveParameters.zip key.parameters)
    {t : TypeDef} (ht : a.type? pair.1 = some t) (hplain : t.isGeneric = false) :
    pair.2 = pair.1 := by
  obtain ⟨i, hi, rfl⟩ := List.getElem_of_mem hpair
  rw [List.getElem_zip] at ht ⊢
  -- A key comes from a declaration or from a call, which gives a declared type as it stands.
  cases h with
  | @ofMethod id m' hm' =>
    rw [FunctionKey.ofMethod, hnumbered id m' hm', hm'] at hm
    obtain rfl := Option.some.inj hm
    rfl
  | @call _ _ slots _ hcallee =>
    obtain ⟨target, parameters, htarget, hlength, hparameters, rfl⟩ :=
      Specialized.calleeKey?_eq_some.mp hcallee
    obtain ⟨id, -, hfound⟩ := Option.bind_eq_some_iff.mp htarget
    dsimp only at hm
    rw [hnumbered id target hfound, hfound] at hm
    obtain rfl := Option.some.inj hm
    simp only [List.length_zip] at hi
    have hin : i < (target.effectiveParameters.zip slots).length := by
      rw [List.length_zip]
      omega
    have hargument := (mapM_eq_some.mp hparameters).get hin (by omega)
    simp only [List.get_eq_getElem, List.getElem_zip, Specialized.argumentType?, ht, hplain,
      Bool.false_eq_true, if_false] at hargument
    exact (Option.some.inj hargument).symm

/-- The substitution of such a key makes the parameter types of the method those of the key. -/
theorem FunctionKey.Obtained.apply_eq {a : Assembly} (hnumbered : a.Numbered) {key : FunctionKey}
    (h : key.Obtained a) {p : Specialized} (hp : a.specialized? key = some p) :
    p.method.effectiveParameters.map p.specialization.apply = key.parameters := by
  obtain ⟨-, hm, hbind⟩ := Assembly.specialized?_eq_some.mp hp
  refine List.ext_getElem ?_ fun i hi hi' => ?_
  · rw [List.length_map, h.length hnumbered hm]
  · rw [List.getElem_map]
    have hin : i < (p.method.effectiveParameters.zip key.parameters).length := by
      rw [List.length_zip]
      rw [List.length_map] at hi
      omega
    have hpair := List.getElem_mem hin
    have happly := Specialization.apply_of_bind hbind hpair fun t ht hplain =>
      h.eq_of_plain hnumbered hm hpair ht hplain
    simpa using happly

end ShaderLowering
