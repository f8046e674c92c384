import ShaderLowering.Proofs.Lowering.Keys

/-!
# What a substitution makes of types

The effective parameters of a method, as they are declared, are matched with the types of a key.  That
succeeds exactly if each declared type is there and the key is consistent, that is, has one type for each
placeholder (`Specialization.exists_bind_iff`).  The substitution that it gives takes each placeholder to
that type, and leaves every other type alone (`Specialization.substitutes_of_bind`).

A call infers the key of its callee from the types of slots.  If those are concrete then so are the types of
the key, and they are what the substitution of the callee makes of the declared ones
(`FunctionKey.instantiates_of_calleeKey?`).
-/

namespace ShaderLowering

/-! ## Placeholders and concrete types -/

namespace Assembly

/-- A type is a placeholder. -/
def Placeholder (a : Assembly) (id : TypeId) : Prop :=
  ∃ t, a.type? id = some t ∧ t.isGeneric = true

/-- A type is there and is no placeholder. -/
def Concrete (a : Assembly) (id : TypeId) : Prop :=
  ∃ t, a.type? id = some t ∧ t.isGeneric = false

end Assembly

/-- A key has the same type wherever a method declares the same placeholder. -/
def FunctionKey.Consistent (a : Assembly) (m : MethodDef) (key : FunctionKey) : Prop :=
  ∀ (i j : Nat) (g c c' : TypeId), a.Placeholder g → m.effectiveParameters[i]? = some g →
    m.effectiveParameters[j]? = some g → key.parameters[i]? = some c → key.parameters[j]? = some c' →
      c = c'

namespace Specialization

/-- A substitution takes the placeholders that a method declares to the types that a key has in their
places, and every other type to itself. -/
structure Substitutes (a : Assembly) (m : MethodDef) (key : FunctionKey) (s : Specialization) : Prop where
  placeholder : ∀ (i : Nat) (g c : TypeId), a.Placeholder g → m.effectiveParameters[i]? = some g →
    key.parameters[i]? = some c → s.apply g = c
  other : ∀ id, ¬(id ∈ m.effectiveParameters ∧ a.Placeholder id) → s.apply id = id

variable {a : Assembly} {m : MethodDef} {s s' : Specialization} {declared concrete g c : TypeId}
  {pairs : List (TypeId × TypeId)} {key : FunctionKey}

/-! ## Matching -/

/-- A parameter can be matched unless its placeholder is bound to another type. -/
theorem exists_bindOne (hdefined : (a.type? declared).isSome)
    (hagrees : a.Placeholder declared → ∀ c, s.lookup? declared = some c → c = concrete) :
    ∃ s', bindOne a m s declared concrete = .ok s' := by
  obtain ⟨t, ht⟩ := Option.isSome_iff_exists.mp hdefined
  simp only [bindOne, ht]
  split
  · next hgeneric =>
    split
    · exact ⟨_, rfl⟩
    · next c hc => exact ⟨s, if_pos (hagrees ⟨t, ht, hgeneric⟩ c hc)⟩
  · exact ⟨s, rfl⟩

/-- What is bound once parameters are matched was bound before or is matched with one of them. -/
theorem lookup?_of_bindOne (h : bindOne a m s declared concrete = .ok s') (hg : s'.lookup? g = some c) :
    s.lookup? g = some c ∨ (g, c) = (declared, concrete) := by
  unfold bindOne at h
  split at h
  · cases h
  · split at h
    · split at h
      · obtain rfl := Except.ok.inj h
        rw [lookup?_concat] at hg
        rcases Option.or_eq_some_iff.mp hg with hold | ⟨-, hnew⟩
        · exact .inl hold
        -- The last binding is the one that was added.
        · split at hnew
          · next heq => exact .inr (Prod.ext heq (Option.some.inj hnew).symm)
          · cases hnew
      · split at h
        · obtain rfl := Except.ok.inj h
          exact .inl hg
        · cases h
    · obtain rfl := Except.ok.inj h
      exact .inl hg

theorem lookup?_of_bindAll (h : bindAll a m s pairs = .ok s') (hg : s'.lookup? g = some c) :
    s.lookup? g = some c ∨ (g, c) ∈ pairs := by
  induction pairs generalizing s with
  | nil =>
    obtain rfl := Except.ok.inj h
    exact .inl hg
  | cons pair rest ih =>
    rw [bindAll] at h
    split at h
    · next s₁ hone =>
      rcases ih h with hfirst | hrest
      · exact (lookup?_of_bindOne hone hfirst).imp_right fun heq => List.mem_cons.mpr (.inl heq)
      · exact .inr (List.mem_cons_of_mem pair hrest)
    · cases h

/-- Parameters can be matched if those with the same placeholder are matched with the same type, which is
the one that the placeholder is bound to if it is bound. -/
theorem exists_bindAll (hdefined : ∀ pair ∈ pairs, (a.type? pair.1).isSome)
    (hbound : ∀ pair ∈ pairs, a.Placeholder pair.1 → ∀ c, s.lookup? pair.1 = some c → c = pair.2)
    (hagree : ∀ pair ∈ pairs, ∀ pair' ∈ pairs, a.Placeholder pair.1 → pair.1 = pair'.1 →
      pair.2 = pair'.2) : ∃ s', bindAll a m s pairs = .ok s' := by
  induction pairs generalizing s with
  | nil => exact ⟨s, rfl⟩
  | cons pair rest ih =>
    obtain ⟨s₁, hone⟩ := exists_bindOne (m := m) (hdefined pair List.mem_cons_self)
      (hbound pair List.mem_cons_self)
    simp only [bindAll, hone]
    refine ih (fun pair' hpair' => hdefined pair' (List.mem_cons_of_mem _ hpair'))
      (fun pair' hpair' hgeneric c hc => ?_)
      (fun pair' hpair' pair'' hpair'' => hagree pair' (List.mem_cons_of_mem _ hpair') pair''
        (List.mem_cons_of_mem _ hpair''))
    rcases lookup?_of_bindOne hone hc with hbefore | hnew
    · exact hbound pair' (List.mem_cons_of_mem _ hpair') hgeneric c hbefore
    · obtain ⟨hsame, rfl⟩ := Prod.mk.inj hnew
      exact (hagree pair' (List.mem_cons_of_mem _ hpair') pair List.mem_cons_self hgeneric hsame).symm

/-! ## Keys -/

/-- What a substitution takes a declared placeholder to. -/
theorem apply_of_mem (h : bind a m key = .ok s)
    (hpair : (g, c) ∈ m.effectiveParameters.zip key.parameters) (hg : a.Placeholder g) : s.apply g = c := by
  obtain ⟨-, -, hall⟩ := bindAll_eq_ok h proper_empty
  obtain ⟨t, ht, hbound⟩ := hall _ hpair
  obtain ⟨t', ht', hgeneric⟩ := hg
  obtain rfl := Option.some.inj (ht.symm.trans ht')
  rw [apply, hbound hgeneric, Option.getD_some]

theorem mem_zip_iff {xs ys : List TypeId} :
    (g, c) ∈ xs.zip ys ↔ ∃ i : Nat, xs[i]? = some g ∧ ys[i]? = some c := by
  simp only [List.mem_iff_getElem?, List.getElem?_zip_eq_some]

/-- The substitution of a key takes declared placeholders to the types of the key and other types to
themselves. -/
theorem substitutes_of_bind (h : bind a m key = .ok s) : s.Substitutes a m key where
  placeholder i g c hg hi hi' := apply_of_mem h (mem_zip_iff.mpr ⟨i, hi, hi'⟩) hg
  other id hno := by
    rw [apply]
    cases hlookup : s.lookup? id with
    | none => rfl
    | some c =>
      obtain ⟨hproper, -, -⟩ := bindAll_eq_ok h proper_empty
      rcases lookup?_of_bindAll h hlookup with hempty | hpair
      · simp [empty, lookup?] at hempty
      · exact absurd ⟨(List.of_mem_zip hpair).1, hproper id c hlookup⟩ hno

/-- There is a substitution for a key if the declared types are there and the key is consistent, and only
then. -/
theorem exists_bind_iff (hlength : key.parameters.length = m.effectiveParameters.length) :
    (∃ s, bind a m key = .ok s) ↔
      (∀ id ∈ m.effectiveParameters, (a.type? id).isSome) ∧ key.Consistent a m := by
  constructor
  · rintro ⟨s, hs⟩
    obtain ⟨-, -, hall⟩ := bindAll_eq_ok hs proper_empty
    refine ⟨fun id hid => ?_, fun i j g c c' hg hi hj hc hc' => ?_⟩
    · rw [← List.map_fst_zip hlength.ge] at hid
      obtain ⟨pair, hpair, rfl⟩ := List.mem_map.mp hid
      obtain ⟨t, ht, -⟩ := hall pair hpair
      exact Option.isSome_iff_exists.mpr ⟨t, ht⟩
    · have hsubstitutes := substitutes_of_bind hs
      rw [← hsubstitutes.placeholder i g c hg hi hc, hsubstitutes.placeholder j g c' hg hj hc']
  · rintro ⟨hdefined, hconsistent⟩
    refine exists_bindAll (fun pair hpair => hdefined _ (List.of_mem_zip hpair).1)
      (fun pair _ _ c hc => by simp [empty, lookup?] at hc) fun pair hpair pair' hpair' hg hsame => ?_
    obtain ⟨i, hi, hc⟩ := mem_zip_iff.mp hpair
    obtain ⟨j, hj, hc'⟩ := mem_zip_iff.mp hpair'
    exact hconsistent i j pair.1 pair.2 pair'.2 hg hi (hsame ▸ hj) hc hc'

end Specialization

/-! ## Calls -/

/-- The types of a key are concrete, and what the substitution of the key makes of the declared parameters of
its method; there is one, provided that the key is consistent. -/
structure FunctionKey.Instantiates (a : Assembly) (key : FunctionKey) : Prop where
  concrete : ∀ id ∈ key.parameters, a.Concrete id
  bound : ∃ target, a.method? key.method = some target ∧
    key.parameters.length = target.effectiveParameters.length ∧
    ((∃ s, Specialization.bind a target key = .ok s) ↔ key.Consistent a target) ∧
    ∀ s, Specialization.bind a target key = .ok s →
      target.effectiveParameters.map s.apply = key.parameters

section Calls

variable {a : Assembly} {p : Specialized} {wire : UInt64} {slots : List Il.Slot} {callee : FunctionKey}

/-- What a call gives to a parameter is concrete, and the parameter is declared. -/
theorem Specialized.concrete_of_argumentType? (hslots : ∀ id ∈ p.slotTypes, a.Concrete id)
    {declared type : TypeId} {argument : Il.Slot}
    (htype : p.argumentType? a declared argument = some type) :
    a.Concrete type ∧ (a.type? declared).isSome := by
  unfold argumentType? at htype
  split at htype
  · cases htype
  · next t ht =>
    refine ⟨?_, by rw [ht]; rfl⟩
    split at htype
    · exact hslots type (List.mem_of_getElem? htype)
    · next hplain =>
      obtain rfl := Option.some.inj htype
      exact ⟨t, ht, by simpa using hplain⟩

/-- A call whose caller has concrete slots asks for a key with concrete types that are what its own
substitution makes of the parameters of the callee. -/
theorem FunctionKey.instantiates_of_calleeKey? (hnumbered : a.Numbered)
    (hslots : ∀ id ∈ p.slotTypes, a.Concrete id) (hcallee : p.calleeKey? a wire slots = some callee) :
    callee.Instantiates a := by
  have hobtained : callee.Obtained a := .call hcallee
  obtain ⟨target, parameters, htarget, hlength, hparameters, rfl⟩ :=
    Specialized.calleeKey?_eq_some.mp hcallee
  obtain ⟨id, -, hfound⟩ := Option.bind_eq_some_iff.mp htarget
  have hmethod : a.method? target.id = some target := by rwa [hnumbered id target hfound]
  have hall := mapM_eq_some.mp hparameters
  have hsame := hobtained.length hnumbered hmethod
  -- Each parameter has an argument, and that has a type only if the parameter has.
  have hdeclared : ∀ declared ∈ target.effectiveParameters, (a.type? declared).isSome := by
    intro declared hmem
    rw [← List.map_fst_zip hlength.ge] at hmem
    obtain ⟨pair, hpair, rfl⟩ := List.mem_map.mp hmem
    obtain ⟨type, -, htype⟩ := forall₂_mem_left hall hpair
    exact (Specialized.concrete_of_argumentType? hslots htype).2
  refine ⟨fun type htype => ?_, target, hmethod, hsame, ?_, fun s hs => ?_⟩
  · obtain ⟨pair, -, hpair⟩ := forall₂_mem_left hall.flip htype
    exact (Specialized.concrete_of_argumentType? hslots hpair).1
  · rw [Specialization.exists_bind_iff hsame]
    exact and_iff_right hdeclared
  · exact hobtained.apply_eq hnumbered (p := ⟨⟨target.id, parameters⟩, target, s⟩)
      (Assembly.specialized?_eq_some.mpr ⟨rfl, hmethod, hs⟩)

end Calls

end ShaderLowering
