import ShaderLowering.Proofs.Lowering.Rules
import ShaderLowering.Proofs.Lowering.ValueTypes

/-!
# Types, constants and global variables keep to the ledger

For each kind of entity but functions: what its factory makes is right, and if the factory fails then
the entity is not constructible.
-/

namespace ShaderLowering

open Construction
open Spirv (Id Word)

variable {a : Assembly} {roots : Key → Prop} {h : History} {k : Key}

/-- What is to be shown of the construction of a key. -/
theorem Makes.factory {t : Construct k.Value}
    (ht : Makes a roots (.construct k) (¬Constructible a k) h t fun h' v => Holds a h' k v) :
    (ledger a roots).Safe (.construct k) h t fun h' result =>
      (ledger a roots).Concludes h' k result := by
  refine Discipline.Safe.mono (fun h' result hresult => ?_) ht
  cases result with
  | ok v => exact hresult.2
  | error e => exact ⟨hresult, trivial⟩

/-! ## Shapes and constants -/

theorem Name.declaration?_of_shape {ν : List Name} {n : Name} {s : Shape}
    (hkey : n.key ν = .shape s) : n.declaration? a ν = some (.shape s) := by
  cases n with
  | value type => cases type <;> simp_all [Name.key, Name.declaration?]
  | _ => simp_all [Name.key, Name.declaration?]

theorem Name.declaration?_of_constant {ν : List Name} {n : Name} {type : Id} {bits : Word}
    (hkey : n.key ν = .constant type bits) :
    n.declaration? a ν = some (.constant type bits) := by
  cases n with
  | value type => cases type <;> simp_all [Name.key]
  | _ => simp_all [Name.key, Name.declaration?]

/-- A key whose construction is one declaration. -/
theorem makes_declared {d : Declaration} {n : Name} (hkey : n.key (names h) = k)
    (hparts : ∀ p ∈ n.parts a, p ∈ names h) (hgenuine : n.Genuine a) (hnew : notes h k = [])
    (hd : n.declaration? a (names h) = some d) :
    Makes a roots (.construct k) (¬Constructible a k) h (Construct.declare d) fun h' i =>
      Declared a (names h') k i := by
  have hunissued : .issue n ∉ notes h k := by simp [hnew]
  refine .mono (.declare hkey hparts hgenuine hunissued hd) ?_
  rintro _ i ⟨l, rfl⟩ ⟨hstands, -⟩
  refine ⟨n, ?_, fun p hp => by simp [hparts p hp], hstands⟩
  rw [names_append, Name.key_append hparts, hkey]

theorem makes_shape {s : Shape} (hknown : Known a roots h (.shape s))
    (hnew : notes h (.shape s) = []) :
    Makes a roots (.construct (.shape s)) (¬Constructible a (.shape s)) h
      (Construct.declare (.shape s)) fun h' i => Holds a h' (.shape s) i := by
  obtain ⟨n, hkey, hparts, -⟩ := hknown
  have hgenuine : n.Genuine a := Name.genuine_of_key (ν := names h) fun id => by simp [hkey]
  exact .mono (makes_declared hkey hparts hgenuine hnew (Name.declaration?_of_shape hkey))
    fun h' i _ hi => ⟨hi, nofun⟩

theorem makes_constant {type : Id} {bits : Word} (hknown : Known a roots h (.constant type bits))
    (hnew : notes h (.constant type bits) = []) :
    Makes a roots (.construct (.constant type bits)) (¬Constructible a (.constant type bits)) h
      (Construct.buildConstant type bits) fun h' i => Holds a h' (.constant type bits) i := by
  obtain ⟨n, hkey, hparts, -⟩ := hknown
  have hgenuine : n.Genuine a := Name.genuine_of_key (ν := names h) fun id => by simp [hkey]
  exact .mono (makes_declared hkey hparts hgenuine hnew (Name.declaration?_of_constant hkey))
    fun h' i _ hi => ⟨hi, nofun⟩

/-! ## Types -/

namespace Assembly

variable {id : TypeId}

/-- A type that can be constructed has a name. -/
theorem valueType?_isSome (hconstructible : Constructible a (.type id)) :
    (a.valueType? id).isSome := by
  generalize hk : Key.type id = k at hconstructible
  -- By induction on what the type needs; only a vector needs the name of another.
  induction hconstructible generalizing id with
  | intro hsound hneeds ih =>
    subst hk
    obtain ⟨t, ht, -, hstruct | ⟨name, hname, hsupported⟩⟩ := hsound
    · rw [valueType?_struct ht hstruct]
      rfl
    · cases hparse : Representation.parse name with
      | vector element size =>
        rw [hparse] at hsupported
        obtain ⟨e, helement⟩ := Option.isSome_iff_exists.mp hsupported.1
        obtain ⟨n, rfl⟩ := Option.isSome_iff_exists.mp hsupported.2
        obtain ⟨type, htype⟩ := Option.isSome_iff_exists.mp
          (ih _ (.element ht hname hparse helement) rfl)
        rw [valueType?_vector ht hname hparse helement htype]
        rfl
      | malformed => simp [hparse, Representation.Supported] at hsupported
      | unknown => simp [hparse, Representation.Supported] at hsupported
      | _ => rw [valueType?_simple ht hname (by rw [hparse]; rfl)]; rfl

end Assembly

section Types

variable {id : TypeId} {t : TypeDef} {name : String}

/-- A type whose shape depends on no other type. -/
theorem makes_simple {s : Shape} {type : ValueType} (hreached : Reached a roots (.type id))
    (ht : a.type? id = some t) (hname : t.representation? = some (some name))
    (hsimple : (Representation.parse name).simple? = some type)
    (hkey : ∀ ν, (Name.value type).key ν = .shape s) (hparts : (Name.value type).parts a = []) :
    Makes a roots (.construct (.type id)) (¬Constructible a (.type id)) h
      (some <$> Construct.shape s) fun h' resolved =>
        ∃ i, resolved = some i ∧ Stands (names h') (.value (a.valueType id)) i := by
  have htype : a.valueType id = type :=
    Assembly.valueType_eq (Assembly.valueType?_simple ht hname hsimple)
  have hmentioned : Mentioned a roots (.value type) := ⟨_, hreached, htype ▸ .type id⟩
  refine .map (.shape (hkey _) (by simp [hparts]) hmentioned trivial) ?_
  rintro h' i _ ⟨-, hi⟩ hquiet
  obtain ⟨l, rfl⟩ := hquiet.exists_append
  refine ⟨i, rfl, ?_⟩
  rw [htype, names_append]
  exact hi.append _

/-- A vector of a type that is had first. -/
theorem makes_vector {element : String} {size : Option Word} {unsupported : Fault}
    (hreached : Reached a roots (.type id)) (ht : a.type? id = some t)
    (hgeneric : t.isGeneric = false) (hname : t.representation? = some (some name))
    (hparse : Representation.parse name = .vector element size) :
    Makes a roots (.construct (.type id)) (¬Constructible a (.type id)) h
      (do
        let elementDef ← Task.ofOption (I := lowering) unsupported (a.findType? element)
        let elementType ← Construct.type a elementDef.id
        let size ← Task.ofOption (I := lowering) unsupported size
        some <$> Construct.shape (.vector elementType size))
      fun h' resolved => ∃ i, resolved = some i ∧
        Constructible a (.type id) ∧ Stands (names h') (.value (a.valueType id)) i := by
  refine .bind (.ofOption fun hnone hconstructible => ?_) fun h₁ e _ hfound => ?_
  · have hsupported := hconstructible.sound.supported ht hname
    rw [hparse] at hsupported
    simp [Representation.Supported, hnone] at hsupported
  have helement := hfound.2
  have hneeds : Needs a (.type id) (.type e.id) := .element ht hname hparse helement
  refine .bind (.type (hreached.needs hneeds) hneeds fun hbad hconstructible =>
    hbad (hconstructible.needs hneeds)) fun h₂ i _ htyped => ?_
  obtain ⟨-, hconstructible, hi⟩ := htyped
  refine .bind (.ofOption fun hnone hconstructible => ?_) fun h₃ n hbefore hsized => ?_
  · have hsupported := hconstructible.sound.supported ht hname
    rw [hparse] at hsupported
    simp [Representation.Supported, hnone] at hsupported
  obtain ⟨l, rfl⟩ := hbefore
  obtain ⟨-, rfl⟩ := hsized
  obtain ⟨type, htype⟩ := Option.isSome_iff_exists.mp (Assembly.valueType?_isSome hconstructible)
  have hvector := Assembly.valueType_eq
    (Assembly.valueType?_vector ht hname hparse helement htype)
  rw [Assembly.valueType_eq htype] at hi
  have hi' := hi.append (names l)
  rw [← names_append] at hi'
  have hmentioned : Mentioned a roots (.value (.vector type n)) :=
    ⟨_, hreached, hvector ▸ .type id⟩
  refine .map (.shape (n := .value (.vector type n)) (by rw [Name.key, ← hi'.2])
    (by simpa [Name.parts] using hi'.1) hmentioned trivial) ?_
  rintro h₄ j _ ⟨-, hj⟩ hquiet
  obtain ⟨l', rfl⟩ := hquiet.exists_append
  refine ⟨j, rfl, Supplied.constructible (supplied_of_supported ht hgeneric hname ?_ ?_), ?_⟩
  · rw [hparse]
    exact ⟨by simp [helement], rfl⟩
  · intro element' size' e' hparse' helement'
    rw [hparse] at hparse'
    obtain ⟨rfl, -⟩ := Representation.vector.inj hparse'
    rw [helement] at helement'
    obtain rfl := Option.some.inj helement'
    exact hconstructible
  · rw [hvector, names_append]
    exact hj.append _

/-- A type that the platform lays out. -/
theorem makes_representation (hreached : Reached a roots (.type id)) (ht : a.type? id = some t)
    (hgeneric : t.isGeneric = false) (hname : t.representation? = some (some name)) :
    Makes a roots (.construct (.type id)) (¬Constructible a (.type id)) h
      (Construct.representation? a t name) fun h' resolved =>
        (resolved = none → ¬Constructible a (.type id)) ∧ ∀ i, resolved = some i →
          Constructible a (.type id) ∧ Stands (names h') (.value (a.valueType id)) i := by
  have hplain : ∀ {s : Shape} {type : ValueType},
      (Representation.parse name).simple? = some type →
      (Representation.parse name).Supported a → (∀ ν, (Name.value type).key ν = .shape s) →
      (Name.value type).parts a = [] →
      Makes a roots (.construct (.type id)) (¬Constructible a (.type id)) h
        (some <$> Construct.shape s) fun h' resolved =>
          (resolved = none → ¬Constructible a (.type id)) ∧ ∀ i, resolved = some i →
            Constructible a (.type id) ∧ Stands (names h') (.value (a.valueType id)) i := by
    intro s type hsimple hsupported hkey hparts
    refine .mono (makes_simple hreached ht hname hsimple hkey hparts) ?_
    rintro h' resolved - ⟨i, rfl, hi⟩
    refine ⟨nofun, fun j hj => ⟨?_, Option.some.inj hj ▸ hi⟩⟩
    refine Supplied.constructible (supplied_of_supported ht hgeneric hname hsupported
      fun element size e hparse => ?_)
    rw [hparse] at hsimple
    cases hsimple
  have hunsupported : ¬(Representation.parse name).Supported a → ¬Constructible a (.type id) :=
    fun hno hconstructible => hno (hconstructible.sound.supported ht hname)
  -- A head that is not known yields nothing here, and the caller fails.
  unfold Construct.representation?
  cases hparse : Representation.parse name with
  | unknown => exact .pure fun _ _ => ⟨fun _ => hunsupported (by rw [hparse]; exact fun hno => hno), nofun⟩
  | malformed => exact .fail (hunsupported (by rw [hparse]; exact fun hno => hno))
  | void => exact hplain (by rw [hparse]; rfl) (by rw [hparse]; trivial) (fun _ => rfl) rfl
  | int width signed =>
    exact hplain (by rw [hparse]; rfl) (by rw [hparse]; trivial) (fun _ => rfl) rfl
  | float width => exact hplain (by rw [hparse]; rfl) (by rw [hparse]; trivial) (fun _ => rfl) rfl
  | vector element size =>
    refine .mono (makes_vector hreached ht hgeneric hname hparse) ?_
    rintro h' resolved - ⟨i, rfl, hi⟩
    exact ⟨nofun, fun j hj => Option.some.inj hj ▸ hi⟩

/-- The struct of the instance fields of a type. -/
theorem makes_struct (hreached : Reached a roots (.type id)) (hnew : notes h (.type id) = [])
    (ht : a.type? id = some t) (hgeneric : t.isGeneric = false)
    (hstruct : t.representation? = none) :
    Makes a roots (.construct (.type id)) (¬Constructible a (.type id)) h
      (Construct.buildStruct a t) fun h' i => Holds a h' (.type id) i := by
  have hneeds : ∀ f ∈ a.instanceFields t, Needs a (.type id) (.type f.type) := fun f hf =>
    .member ht hstruct hf
  have hmembers : a.members id = (a.instanceFields t).map fun f => a.valueType f.type := by
    rw [Assembly.members, ht]
  have htype := Assembly.valueType_eq (Assembly.valueType?_struct ht hstruct)
  refine .bind (.types FieldDef.type (fun f hf => hreached.needs (hneeds f hf)) hneeds
    fun f hf hbad hconstructible => hbad (hconstructible.needs (hneeds f hf)))
    fun h' ids _ htyped => ?_
  obtain ⟨hquiet, hids, hfields⟩ := htyped
  have hparts : ∀ p ∈ (Name.value (.struct id)).parts a, p ∈ names h' := by
    rw [Name.parts, hmembers, List.map_map]
    intro p hp
    obtain ⟨f, hf, rfl⟩ := List.mem_map.mp hp
    exact (hfields f hf).2
  have hd : (Name.value (.struct id)).declaration? a (names h') = some (.struct ids) := by
    rw [Name.declaration?, hmembers, List.map_map, hids]
    rfl
  have hunissued : .issue (.value (.struct id)) ∉ notes h' (.type id) := by
    simp [hquiet.notes, hnew]
  refine .mono (.declare rfl hparts htype hunissued hd) ?_
  rintro h'' i - ⟨hi, -⟩
  exact ⟨⟨(supplied_of_members ht hgeneric hstruct fun f hf => (hfields f hf).1).constructible, htype ▸ hi⟩,
    fun key hkey => by cases hkey⟩

/-- The type that stands for a front-end type. -/
theorem makes_type (hreached : Reached a roots (.type id)) (hnew : notes h (.type id) = []) :
    Makes a roots (.construct (.type id)) (¬Constructible a (.type id)) h
      ((recipes a).factory (.type id)) fun h' i => Holds a h' (.type id) i := by
  refine .bind (.ofOption fun hnone hconstructible => ?_) fun h' t _ hfound => ?_
  · obtain ⟨t, ht, -⟩ := hconstructible.sound
    rw [hnone] at ht
    cases ht
  obtain ⟨hquiet, ht⟩ := hfound
  unfold Construct.buildType
  split
  · next hgeneric =>
    -- A placeholder cannot be constructed, and neither can a type without a name to represent it.
    refine .fail fun hconstructible => ?_
    obtain ⟨t', ht', hplain, -⟩ := hconstructible.sound
    obtain rfl := Option.some.inj (ht.symm.trans ht')
    rw [hplain] at hgeneric
    cases hgeneric
  · next hplain =>
    have hgeneric : t.isGeneric = false := by simpa using hplain
    split
    · next hstruct =>
      exact makes_struct hreached (hquiet.notes.trans hnew) ht hgeneric hstruct
    · next hmissing =>
      refine .fail fun hconstructible => ?_
      obtain ⟨t', ht', -, hrepresentation⟩ := hconstructible.sound
      obtain rfl := Option.some.inj (ht.symm.trans ht')
      simp [hmissing] at hrepresentation
    · next name hname =>
      refine .bind (makes_representation hreached ht hgeneric hname)
        fun h₁ resolved _ ⟨hnone, hsome⟩ => ?_
      refine .mono (.ofOption hnone) ?_
      rintro _ i ⟨l, rfl⟩ ⟨-, hi⟩
      obtain ⟨hconstructible, hstands⟩ := hsome i hi
      refine ⟨⟨hconstructible, ?_⟩, nofun⟩
      rw [names_append]
      exact hstands.append _

end Types

/-! ## Global variables -/

/-- The global variable behind a static field. -/
theorem makes_global {field : FieldId} (hreached : Reached a roots (.variable field))
    (hsound : Sound a (.variable field)) (hnew : notes h (.variable field) = []) :
    Makes a roots (.construct (.variable field)) (¬Constructible a (.variable field)) h
      ((recipes a).factory (.variable field)) fun h' v => Holds a h' (.variable field) v := by
  refine .bind (.ofOption fun hnone hconstructible => ?_) fun h₀ f _ hfound => ?_
  · obtain ⟨f, hf, -⟩ := hconstructible.sound
    rw [hnone] at hf
    cases hf
  obtain ⟨hquiet₀, hf⟩ := hfound
  have hneeds : Needs a (.variable field) (.type f.type) := .fieldType hf
  have hstorage : a.storage field = f.storage.storageClass := by rw [Assembly.storage, hf]
  have htype : a.fieldType field = a.valueType f.type := by rw [Assembly.fieldType, hf]
  refine .bind (.type (hreached.needs hneeds) hneeds fun hbad hconstructible =>
    hbad (hconstructible.needs hneeds)) fun h₁ i _ htyped => ?_
  obtain ⟨hquiet₁, hconstructible, hi⟩ := htyped
  rw [← htype] at hi
  rw [← hstorage]
  refine .bind (.shape (n := .pointer (a.storage field) (a.fieldType field)) (by rw [Name.key, ← hi.2])
    (by simpa [Name.parts] using hi.1) ⟨_, hreached, .variable field⟩ trivial)
    fun h₂ j hbefore₂ hshaped => ?_
  obtain ⟨hquiet₂, hj⟩ := hshaped
  have hunnoted : notes h₂ (.variable field) = [] := by
    rw [hquiet₂.notes, hquiet₁.notes, hquiet₀.notes, hnew]
  refine .bind (.declare (n := .global field) rfl (by simpa [Name.parts] using hj.1) trivial
    (by simp [hunnoted]) (by rw [Name.declaration?, ← hj.2]))
    fun h₃ v hbefore₃ hdeclared => ?_
  obtain ⟨hv, hnotes₃⟩ := hdeclared
  have hmade : IsGlobal a (names h₃) field ⟨v, field, a.storage field, i⟩ := by
    obtain ⟨l₂, rfl⟩ := hbefore₂
    obtain ⟨l₃, rfl⟩ := hbefore₃
    have hi' := (hi.append (names l₂)).append (names l₃)
    rw [← names_append, ← names_append] at hi'
    refine ⟨(supplied_of_fieldType hsound hf hconstructible).constructible, hv.1, hi'.1, ?_⟩
    rw [Assembly.globalVariable, ← hv.2, ← hi'.2]
  -- What remains is the same with a location and without one, apart from the note of it.
  have hexpose : ∀ h₄, h₃ <+: h₄ → notes h₄ (.variable field) = .issue (.global field) ::
      (a.location? field).toList.map (fun _ => .decorate field) →
      Makes a roots (.construct (.variable field)) (¬Constructible a (.variable field)) h₄
        (do Construct.expose ⟨v, field, a.storage field, i⟩; pure ⟨v, field, a.storage field, i⟩)
        fun h' v => Holds a h' (.variable field) v := by
    rintro _ ⟨l, rfl⟩ hnotes
    have hmade' := hmade.append (names l)
    rw [← names_append] at hmade'
    refine .bind (.expose hmade'.variable_mem hmade'.type_mem hmade'.eq)
      fun h₅ _ hbefore₅ hnotes₅ => .pure fun h₆ hquiet₆ => ⟨?_, fun _ hsettled => ?_⟩
    · obtain ⟨l₅, rfl⟩ := hbefore₅
      obtain ⟨l₆, rfl⟩ := hquiet₆.exists_append
      have hend := (hmade'.append (names l₅)).append (names l₆)
      rwa [← names_append, ← names_append] at hend
    · obtain rfl := Option.some.inj hsettled
      rw [hquiet₆.notes, hnotes₅, hnotes]
      rfl
  have hlocation : a.location? field = f.location? := by rw [Assembly.location?, hf]; rfl
  split
  · next location hsome =>
    refine .bind (.decorate hv (hlocation.trans hsome)) fun h₄ _ hbefore₄ hnotes₄ => ?_
    refine hexpose h₄ hbefore₄ ?_
    rw [hnotes₄, hnotes₃, hunnoted, hlocation, hsome]
    rfl
  · next hnone =>
    refine hexpose h₃ (List.prefix_refl h₃) ?_
    rw [hnotes₃, hunnoted, hlocation, hnone]
    rfl

end ShaderLowering
