import ShaderLowering.Proofs.Lowering.Ledger

/-!
# Reasoning about constructions

`Makes` is what is shown of a construction task: if it ends with a value then that value is right,
and if it ends with an error then there was something wrong (`bad`).  There is one rule for each way
to put tasks together, one for each action, and one for each kind of entity that can be asked for.
-/

namespace ShaderLowering

open Construction
open Spirv (Id Word)

variable {a : Assembly} {roots : Key → Prop} {g : Goal Key} {bad : Prop} {h : History}
  {α β : Type}

/-- A task for a goal keeps to the ledger, ends with a value of which `R` holds, or fails for cause. -/
def Makes (a : Assembly) (roots : Key → Prop) (g : Goal Key) (bad : Prop) (h : History)
    (t : Construct α) (R : History → α → Prop) : Prop :=
  (ledger a roots).Safe g h t fun h' result =>
    match result with
    | .ok v => h <+: h' ∧ R h' v
    | .error _ => bad

/-- A goal has made no notes of its own between two moments. -/
abbrev Quiet (g : Goal Key) (h h' : History) : Prop :=
  Discipline.Relies (I := lowering) g h h'

theorem Quiet.refl (g : Goal Key) (h : History) : Quiet g h h :=
  Discipline.Relies.refl (I := lowering) g h

theorem Quiet.exists_append {h' : History} (hquiet : Quiet g h h') : ∃ l, h' = h ++ l := by
  obtain ⟨l, rfl, -⟩ := hquiet
  exact ⟨l, rfl⟩

theorem Quiet.prefix {h' : History} (hquiet : Quiet g h h') : h <+: h' := by
  obtain ⟨l, rfl⟩ := hquiet.exists_append
  exact List.prefix_append h l

theorem Quiet.notes {k : Key} {h' : History} (hquiet : Quiet (.construct k) h h') :
    notes h' k = notes h k := by
  obtain ⟨l, rfl, hl⟩ := hquiet
  have hnone : ShaderLowering.notes l k = [] := notes_eq_nil fun e he heq => hl e he (by rw [heq])
  rw [notes_append, hnone, List.append_nil]

namespace Makes

variable {t : Construct α} {f : α → Construct β} {R R' : History → α → Prop}
  {S : History → β → Prop}

theorem mono (ht : Makes a roots g bad h t R) (himp : ∀ h' v, h <+: h' → R h' v → R' h' v) :
    Makes a roots g bad h t R' := by
  refine Discipline.Safe.mono (fun h' result hresult => ?_) ht
  cases result with
  | ok v => exact ⟨hresult.1, himp h' v hresult.1 hresult.2⟩
  | error e => exact hresult

theorem weaken {bad' : Prop} (ht : Makes a roots g bad h t R) (hbad : bad → bad') :
    Makes a roots g bad' h t R := by
  refine Discipline.Safe.mono (fun h' result hresult => ?_) ht
  cases result with
  | ok v => exact hresult
  | error e => exact hbad hresult

theorem bind (ht : Makes a roots g bad h t R)
    (hf : ∀ h' v, h <+: h' → R h' v → Makes a roots g bad h' (f v) S) :
    Makes a roots g bad h (t >>= f) S := by
  refine Discipline.Safe.bind (Discipline.Safe.mono (fun h' result hresult => ?_) ht)
  cases result with
  | ok v =>
    obtain ⟨hbefore, hv⟩ := hresult
    refine Discipline.Safe.mono (fun h'' result' hresult' => ?_) (hf h' v hbefore hv)
    cases result' with
    | ok w => exact ⟨hbefore.trans hresult'.1, hresult'.2⟩
    | error e => exact hresult'
  | error e => exact hresult

theorem pure {v : α} (hv : ∀ h', Quiet g h h' → R h' v) :
    Makes a roots g bad h (Pure.pure v : Construct α) R := by
  intro h' s hlater
  obtain ⟨l, rfl⟩ := Quiet.exists_append hlater.relies
  exact ⟨List.prefix_append h l, hv _ hlater.relies⟩

theorem fail {fault : Fault} (hbad : bad) :
    Makes a roots g bad h (Task.fail fault : Construct α) R :=
  fun _ _ _ => hbad

theorem ofOption {fault : Fault} {o : Option α} (hbad : o = none → bad) :
    Makes a roots g bad h (Task.ofOption fault o : Construct α) fun h' v =>
      Quiet g h h' ∧ o = some v := by
  cases o with
  | none => exact .fail (hbad rfl)
  | some v => exact .pure fun _ hquiet => ⟨hquiet, rfl⟩

theorem map {k : α → β} (ht : Makes a roots g bad h t R)
    (hS : ∀ h' v h'', R h' v → Quiet g h' h'' → S h'' (k v)) :
    Makes a roots g bad h (k <$> t) S := by
  rw [← bind_pure_comp]
  exact ht.bind fun h' v _ hv => .pure fun h'' hquiet => hS h' v h'' hv hquiet

/-- Tasks for the members of a list are carried out one after another. -/
theorem mapM {xs : List α} {k : α → Construct β} {P : α → History → β → Prop}
    (hgrow : ∀ x h' v l, P x h' v → P x (h' ++ l) v)
    (hk : ∀ x ∈ xs, ∀ h', Quiet g h h' →
      Makes a roots g bad h' (k x) fun h'' v => Quiet g h' h'' ∧ P x h'' v) :
    Makes a roots g bad h (xs.mapM k) fun h' vs =>
      Quiet g h h' ∧ List.Forall₂ (fun x v => P x h' v) xs vs := by
  induction xs generalizing h with
  | nil => exact .pure fun h' hquiet => ⟨hquiet, .nil⟩
  | cons x xs ih =>
    rw [List.mapM_cons]
    refine .bind (hk x (by simp) h (Quiet.refl g h)) fun h₁ v _ ⟨hquiet₁, hv⟩ => ?_
    refine .bind (ih fun x hx h' hquiet => hk x (by simp [hx]) h' (hquiet₁.trans hquiet))
      fun h₂ vs _ ⟨hquiet₂, hvs⟩ => .pure fun h₃ hquiet₃ => ?_
    obtain ⟨l₂, rfl⟩ := hquiet₂.exists_append
    obtain ⟨l₃, rfl⟩ := hquiet₃.exists_append
    refine ⟨hquiet₁.trans (hquiet₂.trans hquiet₃), .cons ?_ ?_⟩
    · rw [List.append_assoc]
      exact hgrow x _ v _ hv
    · exact hvs.imp fun x v hv => hgrow x _ v l₃ hv

end Makes

/-! ## Actions -/

section Actions

variable {k : Key}

/-- An action is noted as soon as it is taken. -/
theorem Makes.act {action : Action} {note : Note} {P : History → action.Answer → Prop}
    (hgrow : ∀ h' v l, P h' v → P (h' ++ l) v)
    (hact : ∀ h' e, h <+: h' → notes h' k = notes h k → Account a h' e →
      Account a (h' ++ [(k, note)]) (Emission.act action e).2 ∧
        P (h' ++ [(k, note)]) (Emission.act action e).1) :
    Makes a roots (.construct k) bad h (Task.perform (I := lowering) action) fun h' v =>
      P h' v ∧ notes h' k = notes h k ++ [note] := by
  intro h' e hlater hwithin
  obtain ⟨l, rfl, hl⟩ := id hlater.relies
  have hnotes := Quiet.notes hlater.relies
  obtain ⟨hacc, hP⟩ := hact _ e (List.prefix_append h l) hnotes hlater.inv
  refine ⟨[(k, note)], by simp, hacc, fun h'' s hlater' => ?_⟩
  obtain ⟨l', rfl, hl'⟩ := id hlater'.relies
  refine ⟨?_, hgrow _ _ l' hP, ?_⟩
  · rw [List.append_assoc, List.append_assoc]
    exact List.prefix_append h _
  · have hmade : notes [(k, note)] k = [note] := by simp [notes]
    rw [Quiet.notes hlater'.relies, notes_append, hnotes, hmade]

/-- A declaration gives a new name its id. -/
theorem Makes.declare {n : Name} {d : Declaration} (hkey : n.key (names h) = k)
    (hparts : ∀ p ∈ n.parts a, p ∈ names h) (hgenuine : n.Genuine a)
    (hnew : .issue n ∉ notes h k) (hd : n.declaration? a (names h) = some d) :
    Makes a roots (.construct k) bad h (Construct.declare d) fun h' i =>
      Stands (names h') n i ∧ notes h' k = notes h k ++ [.issue n] := by
  refine Makes.act (fun h' v l hv => by rw [names_append]; exact hv.append _) ?_
  rintro _ e ⟨l, rfl⟩ hnotes hacc
  -- Others may have issued names meanwhile; the parts of this one are known all the same.
  have hkey' : n.key (names (h ++ l)) = k := by rw [names_append, Name.key_append hparts, hkey]
  have hparts' : ∀ p ∈ n.parts a, p ∈ names (h ++ l) := fun p hp => by
    rw [names_append]
    exact List.mem_append_left _ (hparts p hp)
  have hnew' : .issue n ∉ notes (h ++ l) k := by rwa [hnotes]
  -- The next id goes to the new name, as so many ids are issued as there are names.
  have hid : ident (names (h ++ l) ++ [n]) n = e.ids.next.1 := by
    rw [ident_concat (hacc.not_mem_names hkey' hnew'), ← hacc.issued]
  have hline : (n.line? a (names (h ++ l) ++ [n])).toList = [d.instruction e.ids.next.1] := by
    rw [Name.line?, hid, names_append, List.append_assoc, Name.declaration?_append hparts, hd]
    rfl
  refine ⟨?_, ?_, ?_⟩
  · have hmore := hacc.issue hkey' hparts' hgenuine hnew'
    rw [hline] at hmore
    exact hmore
  · simp [names, noted, Note.issued?]
  · rw [names_append]
    exact hid.symm

/-- A function takes an id of its own. -/
theorem Makes.freshId {key : FunctionKey} {number : Nat}
    (hnew : .issue (.own key number) ∉ notes h (.function key)) :
    Makes a roots (.construct (.function key)) bad h Construct.freshId fun h' i =>
      Stands (names h') (.own key number) i ∧
        notes h' (.function key) = notes h (.function key) ++ [.issue (.own key number)] := by
  refine Makes.act (fun h' v l hv => by rw [names_append]; exact hv.append _) ?_
  intro h' e _ hnotes hacc
  have hnew' : .issue (.own key number) ∉ notes h' (.function key) := by rwa [hnotes]
  have hid : ident (names h' ++ [.own key number]) (.own key number) = e.ids.next.1 := by
    rw [ident_concat (hacc.not_mem_names rfl hnew'), ← hacc.issued]
  refine ⟨?_, ?_, ?_⟩
  · have hmore := hacc.issue (n := .own key number) rfl nofun trivial hnew'
    have hline : (Name.own key number).line? a (names h' ++ [.own key number]) = none := rfl
    rw [hline, Option.toList_none, List.append_nil] at hmore
    exact hmore
  · simp [names, noted, Note.issued?]
  · rw [names_append]
    exact hid.symm

/-- A variable is given its location. -/
theorem Makes.decorate {field : FieldId} {i : Id} {location : Word}
    (hi : Stands (names h) (.global field) i) (hlocation : a.location? field = some location) :
    Makes a roots (.construct (.variable field)) bad h (Construct.decorate i location)
      fun h' _ => notes h' (.variable field) = notes h (.variable field) ++ [.decorate field] := by
  refine Makes.mono (Makes.act (P := fun _ _ => True) (fun _ _ _ _ => trivial) ?_)
    fun h' v _ hv => hv.2
  rintro _ e ⟨l, rfl⟩ - hacc
  have hi' := hi.append (names l)
  rw [← names_append] at hi'
  have hmore := hacc.decorate hi'.1 hlocation
  rw [← hi'.2] at hmore
  exact ⟨hmore, trivial⟩

/-- A variable joins the interface of the module. -/
theorem Makes.expose {field : FieldId} {v : GlobalVariable}
    (hvariable : Name.global field ∈ names h) (htype : Name.value (a.fieldType field) ∈ names h)
    (hv : v = a.globalVariable (names h) field) :
    Makes a roots (.construct (.variable field)) bad h (Construct.expose v)
      fun h' _ => notes h' (.variable field) = notes h (.variable field) ++ [.expose field] := by
  refine Makes.mono (Makes.act (P := fun _ _ => True) (fun _ _ _ _ => trivial) ?_)
    fun h' v _ hv => hv.2
  rintro _ e ⟨l, rfl⟩ - hacc
  have hvariable' : Name.global field ∈ names (h ++ l) := by simp [hvariable]
  have htype' : Name.value (a.fieldType field) ∈ names (h ++ l) := by simp [htype]
  have hmore := hacc.expose hvariable' htype'
  rw [names_append, Assembly.globalVariable_append hvariable htype, ← hv] at hmore
  exact ⟨hmore, trivial⟩

end Actions

/-! ## Requests -/

section Requests

variable {k : Key}

/-- What is asked for is right when it is had. -/
theorem Makes.ask (hknown : Known a roots h k) (hallowed : (ledger a roots).Allows g k)
    (hbad : ¬Constructible a k → bad) :
    Makes a roots g bad h (Task.ask (I := lowering) k) fun h' v =>
      Quiet g h h' ∧ Right a (names h') k v := by
  intro h' e hlater _
  obtain ⟨l, rfl⟩ := Quiet.exists_append hlater.relies
  refine ⟨hknown.append l, hallowed, fun result hanswer => ?_⟩
  intro h'' e' hlater'
  obtain ⟨l', rfl⟩ := Quiet.exists_append hlater'.relies
  cases result with
  | ok v =>
    have hright : Right a (names (h ++ l)) k v := hanswer.right
    refine ⟨by rw [List.append_assoc]; exact List.prefix_append h _,
      hlater.relies.trans hlater'.relies, ?_⟩
    rw [names_append]
    exact hright.append _
  | error failure => exact hbad hanswer

/-- The id that is had for a key is that of the name that it was asked for by. -/
theorem Makes.stands {n : Name} (hkey : n.key (names h) = k)
    (hparts : ∀ p ∈ n.parts a, p ∈ names h) (hleaf : ∀ key, k ≠ .function key)
    {t : Construct Id}
    (ht : Makes a roots g bad h t fun h' i => Quiet g h h' ∧ Declared a (names h') k i) :
    Makes a roots g bad h t fun h' i => Quiet g h h' ∧ Stands (names h') n i := by
  refine Discipline.Safe.mono (fun h' result hresult => ?_) (Discipline.Safe.and_inv ht)
  cases result with
  | error e => exact hresult.2
  | ok i =>
    obtain ⟨⟨e, hacc, hwithin⟩, ⟨l, rfl⟩, hquiet, n', hkey', hparts', hstands⟩ := hresult
    refine ⟨List.prefix_append h l, hquiet, ?_⟩
    -- No id stands for two names as long as the names can be numbered.
    have hsize : (names (h ++ l)).length < UInt32.size := by
      rw [← hacc.issued]
      exact hwithin
    have hparts'' : ∀ p ∈ n.parts a, p ∈ names (h ++ l) := fun p hp => by simp [hparts p hp]
    have hkey'' : n.key (names (h ++ l)) = k := by
      rw [names_append, Name.key_append hparts, hkey]
    -- So the name that was declared for the key is the one that was asked for.
    have hsame : n = n' := Name.key_injective hsize hparts'' hparts'
      (fun key heq => hleaf key (hkey''.symm.trans heq)) (hkey''.trans hkey'.symm)
    rw [hsame]
    exact hstands

/-- The type of a shape is had. -/
theorem Makes.shape {n : Name} {s : Shape} (hkey : n.key (names h) = .shape s)
    (hparts : ∀ p ∈ n.parts a, p ∈ names h) (hmentioned : Mentioned a roots n)
    (hallowed : (ledger a roots).Allows g (.shape s)) :
    Makes a roots g bad h (Construct.shape s) fun h' i =>
      Quiet g h h' ∧ Stands (names h') n i :=
  Makes.stands hkey hparts nofun
    (Makes.ask ⟨n, hkey, hparts, hmentioned⟩ hallowed fun hbad => absurd (.shape s) hbad)

/-- A constant is had. -/
theorem Makes.constant {n : Name} {type : Id} {bits : Word}
    (hkey : n.key (names h) = .constant type bits) (hparts : ∀ p ∈ n.parts a, p ∈ names h)
    (hmentioned : Mentioned a roots n) (hallowed : (ledger a roots).Allows g (.constant type bits)) :
    Makes a roots g bad h (Construct.constant type bits) fun h' i =>
      Quiet g h h' ∧ Stands (names h') n i :=
  Makes.stands hkey hparts nofun
    (Makes.ask ⟨n, hkey, hparts, hmentioned⟩ hallowed fun hbad => absurd (.constant type bits) hbad)

/-- The type that stands for a front-end type is had, if it can be constructed. -/
theorem Makes.type {id : TypeId} (hreached : Reached a roots (.type id))
    (hallowed : (ledger a roots).Allows g (.type id)) (hbad : ¬Constructible a (.type id) → bad) :
    Makes a roots g bad h (Construct.type a id) fun h' i => Quiet g h h' ∧
      Constructible a (.type id) ∧ Stands (names h') (.value (a.valueType id)) i := by
  refine .bind (.ofOption fun hnone => hbad fun hconstructible => ?_)
    fun h' t _ ⟨hquiet, _⟩ => .mono (.ask hreached hallowed hbad)
      fun h'' i _ ⟨hquiet', hi⟩ => ⟨hquiet.trans hquiet', hi⟩
  obtain ⟨t, ht, -⟩ := hconstructible.sound
  rw [hnone] at ht
  cases ht

theorem forall₂_map {F : α → β} {C : α → Prop} {xs : List α} {vs : List β}
    (hxs : List.Forall₂ (fun x v => C x ∧ v = F x) xs vs) : vs = xs.map F ∧ ∀ x ∈ xs, C x := by
  induction hxs with
  | nil => exact ⟨rfl, nofun⟩
  | cons hx _ ih =>
    refine ⟨by rw [hx.2, ih.1, List.map_cons], fun x hmem => ?_⟩
    rcases List.mem_cons.mp hmem with rfl | hmem
    · exact hx.1
    · exact ih.2 x hmem

theorem exists_of_mapM {F : α → Option β} {xs : List α} {vs : List β}
    (hvs : xs.mapM F = some vs) {x : α} (hx : x ∈ xs) : ∃ v, F x = some v := by
  obtain ⟨v, -, hv⟩ := forall₂_mem_left (mapM_eq_some.mp hvs) hx
  exact ⟨v, hv⟩

/-- The types that stand for the front-end types of things are had, one after another. -/
theorem Makes.types (typeOf : α → TypeId) {xs : List α}
    (hreached : ∀ x ∈ xs, Reached a roots (.type (typeOf x)))
    (hallowed : ∀ x ∈ xs, (ledger a roots).Allows g (.type (typeOf x)))
    (hbad : ∀ x ∈ xs, ¬Constructible a (.type (typeOf x)) → bad) :
    Makes a roots g bad h (xs.mapM fun x => Construct.type a (typeOf x)) fun h' ids =>
      Quiet g h h' ∧
        ids = (xs.map fun x => ident (names h') (.value (a.valueType (typeOf x)))) ∧
        ∀ x ∈ xs, Constructible a (.type (typeOf x)) ∧
          .value (a.valueType (typeOf x)) ∈ names h' := by
  have hgrow : ∀ (x : α) (h' : History) (i : Id) (l : History),
      (Constructible a (.type (typeOf x)) ∧
        Stands (names h') (.value (a.valueType (typeOf x))) i) →
      Constructible a (.type (typeOf x)) ∧
        Stands (names (h' ++ l)) (.value (a.valueType (typeOf x))) i := by
    intro x h' i l hi
    rw [names_append]
    exact ⟨hi.1, hi.2.append _⟩
  refine .mono (.mapM hgrow fun x hx h' _ => .type (hreached x hx) (hallowed x hx) (hbad x hx))
    fun h' ids _ ⟨hquiet, hids⟩ => ⟨hquiet, ?_⟩
  exact forall₂_map (hids.imp fun x i hi => ⟨⟨hi.1, hi.2.1⟩, hi.2.2⟩)

/-- The global variable behind a field is had, if it can be constructed. -/
theorem Makes.global {field : FieldId} (hreached : Reached a roots (.variable field))
    (hallowed : (ledger a roots).Allows g (.variable field))
    (hbad : ¬Constructible a (.variable field) → bad) :
    Makes a roots g bad h (Construct.global a field) fun h' v =>
      Quiet g h h' ∧ IsGlobal a (names h') field v := by
  refine .bind (.ofOption fun hnone => hbad fun hconstructible => ?_)
    fun h' f _ ⟨hquiet, hf⟩ => ?_
  · obtain ⟨f, hf, -⟩ := hconstructible.sound
    rw [hnone] at hf
    cases hf
  · split
    · next hstatic =>
      exact .mono (.ask ⟨hreached, f, hf, hstatic⟩ hallowed hbad)
        fun h'' v _ ⟨hquiet', hv⟩ => ⟨hquiet.trans hquiet', hv⟩
    · next hstatic =>
      refine .fail (hbad fun hconstructible => hstatic ?_)
      obtain ⟨f', hf', hstatic'⟩ := hconstructible.sound
      rw [hf] at hf'
      obtain rfl := Option.some.inj hf'
      exact hstatic'

/-- A function is had, if it can be constructed. -/
theorem Makes.function {key : FunctionKey} (hreached : Reached a roots (.function key))
    (hallowed : (ledger a roots).Allows g (.function key))
    (hbad : ¬Constructible a (.function key) → bad) :
    Makes a roots g bad h (Construct.function key) fun h' f =>
      Quiet g h h' ∧ f.key = key ∧ Lowered a (names h') f :=
  .ask hreached hallowed hbad

end Requests

end ShaderLowering
