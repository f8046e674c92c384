import ShaderLowering.Proofs.Lowering.Ledger
import ShaderLowering.Proofs.Sessions.Interning
import ShaderLowering.Proofs.Writings.Silent

/-!
# Who has written what

What a run has written is put down under the key whose construction has written it (`Writings`).  A
construction writes what its key calls for, piece by piece and nothing else (`Permitted`).  Once its value
is ready it has written all of it (`Finished`), and one that is given up has written nothing.  As every
construction is begun once and makes notes in its own name only, this is a discipline that is kept on any
number of threads, whether constructions succeed or not (`exists_recorded`).  Unlike the ledger it does
not ask what ids stand for, so it holds however many ids are issued.
-/

namespace ShaderLowering

open Construction
open Spirv

/-- A piece of what a construction writes. -/
inductive Writing where
  | declared (declaration : Declaration) (id : Id)
  | decorated (target : Id) (location : Word)

namespace Writing

/-- The instruction among the declarations. -/
def declaration? : Writing → Option Instruction
  | .declared declaration id => some (declaration.instruction id)
  | .decorated .. => none

/-- The instruction among the annotations. -/
def decoration? : Writing → Option Instruction
  | .declared .. => none
  | .decorated target location => some (decoration target location)

end Writing

/-- Everything that has been written, each piece under the key whose construction has written it. -/
abbrev Writings := List (Key × Writing)

/-- What the construction of a key has written. -/
def Writings.of (h : Writings) (k : Key) : List Writing :=
  (h.filter fun note => note.1 = k).map Prod.snd

/-- A front-end type that stands for the struct of its fields. -/
def Assembly.IsStruct (a : Assembly) (id : TypeId) : Prop :=
  ∃ t, a.type? id = some t ∧ t.isGeneric = false ∧ t.representation? = none

/-- What the construction of a key can have written at any time: nothing, or the one declaration that
the key calls for; and for a variable then the location of its field. -/
inductive Permitted (a : Assembly) : Key → List Writing → Prop
  | nothing (k : Key) : Permitted a k []
  | struct {type : TypeId} (hstruct : a.IsStruct type) (members : List Id) (id : Id) :
      Permitted a (.type type) [.declared (.struct members) id]
  | shape (s : Shape) (id : Id) : Permitted a (.shape s) [.declared (.shape s) id]
  | constant (type : Id) (bits : Word) (id : Id) :
      Permitted a (.constant type bits) [.declared (.constant type bits) id]
  | global (field : FieldId) (pointerType : Id) (storage : StorageClass) (id : Id) :
      Permitted a (.variable field) [.declared (.variable pointerType storage) id]
  | located {field : FieldId} {location : Word} (hlocation : a.location? field = some location)
      (pointerType : Id) (storage : StorageClass) (id : Id) : Permitted a (.variable field)
        [.declared (.variable pointerType storage) id, .decorated id location]

/-- What is written of a run is what its constructions have written, and they have kept to what their
keys call for. -/
structure Recorded (a : Assembly) (h : Writings) (e : Emission) : Prop where
  declared : e.declared = h.filterMap fun note => note.2.declaration?
  annotated : e.annotated = h.filterMap fun note => note.2.decoration?
  permitted : ∀ k, Permitted a k (h.of k)
  distinct : e.ids.issued < UInt32.size → e.Distinct

/-- What has been written for an entity that is ready. -/
def Finished (a : Assembly) (h : Writings) : (k : Key) → k.Value → Prop
  | .type type, id => a.IsStruct type → ∃ members, h.of (.type type) = [.declared (.struct members) id]
  | .shape s, id => h.of (.shape s) = [.declared (.shape s) id]
  | .constant type bits, id => h.of (.constant type bits) = [.declared (.constant type bits) id]
  | .variable field, v => ∃ pointerType storage, h.of (.variable field) =
      .declared (.variable pointerType storage) v.id ::
        (a.location? field).toList.map (.decorated v.id)
  | .function _, _ => True

/-- The discipline of writing. -/
@[reducible] def provenance (a : Assembly) : Discipline lowering Emission Writing where
  recipes := recipes a
  inv := Recorded a
  within _ := True
  known _ := Askable a
  needs _ _ := True
  holds := Finished a
  fails _ := True
  abandoned h k := Writings.of h k = []

/-! ## Notes -/

section Notes

variable {a : Assembly} {h h' l : Writings} {k : Key} {note : Key × Writing}

theorem Writings.of_append (h l : Writings) (k : Key) : Writings.of (h ++ l) k = h.of k ++ l.of k := by
  rw [of, List.filter_append, List.map_append, of, of]

theorem Writings.of_eq_nil (hl : ∀ note ∈ l, note.1 ≠ k) : l.of k = [] := by
  rw [of, List.map_eq_nil_iff, List.filter_eq_nil_iff]
  exact fun note hnote => by simpa using hl note hnote

theorem Writings.mem_of {w : Writing} : w ∈ h.of k ↔ (k, w) ∈ h := by
  simp [of]

theorem Writings.of_singleton (k k' : Key) (w : Writing) :
    Writings.of [(k, w)] k' = if k = k' then [w] else [] := by
  by_cases hsame : k = k' <;> simp [of, hsame]

/-- Nobody else writes for the key of a construction. -/
theorem of_relies (hrelies : Discipline.Relies (I := lowering) (.construct k) h h') :
    Writings.of h' k = Writings.of h k := by
  obtain ⟨l, rfl, hl⟩ := hrelies
  rw [Writings.of_append, Writings.of_eq_nil fun note hnote heq => hl note hnote (heq ▸ rfl),
    List.append_nil]

theorem Finished.append {v : k.Value} (hl : ∀ note ∈ l, note.1 ≠ k) (hv : Finished a h k v) :
    Finished a (h ++ l) k v := by
  have hsame : Writings.of (h ++ l) k = h.of k := by
    rw [Writings.of_append, Writings.of_eq_nil hl, List.append_nil]
  cases k with
  | function key => trivial
  | type id =>
    intro hstruct
    rw [hsame]
    exact hv hstruct
  | «variable» field =>
    rw [Finished, hsame]
    exact hv
  | shape s => exact hsame.trans hv
  | constant type bits => exact hsame.trans hv

theorem recorded_empty (a : Assembly) : Recorded a [] Emission.empty :=
  ⟨rfl, rfl, fun k => .nothing k, fun _ => ⟨List.nodup_nil, nofun⟩⟩

end Notes

/-! ## Actions -/

namespace Recorded

variable {a : Assembly} {h : Writings} {e : Emission} {k : Key}

/-- Something is written for a key that calls for it. -/
theorem permitted_append (he : Recorded a h e) {w : Writing} (hw : Permitted a k (h.of k ++ [w]))
    (k' : Key) : Permitted a k' (Writings.of (h ++ [(k, w)]) k') := by
  rw [Writings.of_append, Writings.of_singleton]
  split
  · next hsame => exact hsame ▸ hw
  · rw [List.append_nil]
    exact he.permitted k'

theorem distinct_act (he : Recorded a h e) (action : Action)
    (hissued : (e.act action).2.ids.issued < UInt32.size) : (e.act action).2.Distinct :=
  (he.distinct (Nat.lt_of_le_of_lt (e.grows_act action).issued hissued)).act action hissued

theorem freshId (he : Recorded a h e) : Recorded a h (e.act .freshId).2 :=
  ⟨he.declared, he.annotated, he.permitted, he.distinct_act .freshId⟩

theorem expose (he : Recorded a h e) (global : GlobalVariable) :
    Recorded a h (e.act (.expose global)).2 :=
  ⟨he.declared, he.annotated, he.permitted, he.distinct_act (.expose global)⟩

theorem declare (he : Recorded a h e) {d : Declaration}
    (hd : Permitted a k (h.of k ++ [.declared d (e.act (.declare d)).1])) :
    Recorded a (h ++ [(k, .declared d (e.act (.declare d)).1)]) (e.act (.declare d)).2 where
  declared := by
    rw [List.filterMap_append, ← he.declared]
    rfl
  annotated := by
    rw [List.filterMap_append, ← he.annotated]
    exact (List.append_nil _).symm
  permitted := he.permitted_append hd
  distinct := he.distinct_act (.declare d)

theorem decorate (he : Recorded a h e) {target : Id} {location : Word}
    (hd : Permitted a k (h.of k ++ [.decorated target location])) :
    Recorded a (h ++ [(k, .decorated target location)]) (e.act (.decorate target location)).2 where
  declared := by
    rw [List.filterMap_append, ← he.declared]
    exact (List.append_nil _).symm
  annotated := by
    rw [List.filterMap_append, ← he.annotated]
    rfl
  permitted := he.permitted_append hd
  distinct := he.distinct_act (.decorate target location)

end Recorded

/-! ## Steps of a construction -/

section Steps

variable {a : Assembly} {h : Writings} {k : Key} {α β : Type} {ws : List Writing}
  {Q : Writings → Result lowering α → Prop} {S : Writings → Result lowering β → Prop}

/-- What is silent is safe, and leaves what has been written for a key as it is. -/
theorem safe_silent {t : Construct α} (ht : t.Silent a) (hws : h.of k = ws)
    (hQ : ∀ h' r, Writings.of h' k = ws → Q h' r) : (provenance a).Safe (.construct k) h t Q := by
  refine Task.Confined.safe ht ?_ ?_ fun h' r hrelies => hQ h' r ((of_relies hrelies).trans hws)
  · rintro _ rfl h e he
    exact he.freshId
  · exact fun r hr _ _ => ⟨hr, trivial⟩

theorem safe_bind {t : Construct α} {f : α → Construct β} (ht : t.Silent a) (hws : h.of k = ws)
    (hf : ∀ v h', Writings.of h' k = ws → (provenance a).Safe (.construct k) h' (f v) S)
    (herror : ∀ h' e, Writings.of h' k = ws → S h' (.error e)) :
    (provenance a).Safe (.construct k) h (t >>= f) S := by
  refine Discipline.Safe.bind (safe_silent ht hws fun h' r hws' => ?_)
  cases r with
  | ok v => exact hf v h' hws'
  | error e => exact herror h' e hws'

theorem safe_declare {d : Declaration} {next : Id → Construct α} (hws : h.of k = ws)
    (hd : ∀ id, Permitted a k (ws ++ [.declared d id]))
    (hnext : ∀ id h', Writings.of h' k = ws ++ [.declared d id] →
      (provenance a).Safe (.construct k) h' (next id) Q) :
    (provenance a).Safe (.construct k) h (Construct.declare d >>= next) Q := by
  intro h' e hlater _
  have hws' : Writings.of h' k = ws := (of_relies hlater.relies).trans hws
  refine ⟨[(k, .declared d (e.act (.declare d)).1)], by simp, ?_, ?_⟩
  · exact hlater.inv.declare (hws' ▸ hd _)
  · refine hnext _ _ ?_
    rw [Writings.of_append, Writings.of_singleton, if_pos rfl, hws']
    rfl

theorem safe_decorate {target : Id} {location : Word} {next : Unit → Construct α} (hws : h.of k = ws)
    (hd : Permitted a k (ws ++ [.decorated target location]))
    (hnext : ∀ h', Writings.of h' k = ws ++ [.decorated target location] →
      (provenance a).Safe (.construct k) h' (next ()) Q) :
    (provenance a).Safe (.construct k) h (Construct.decorate target location >>= next) Q := by
  intro h' e hlater _
  have hws' : Writings.of h' k = ws := (of_relies hlater.relies).trans hws
  refine ⟨[(k, .decorated target location)], by simp, ?_, ?_⟩
  · exact hlater.inv.decorate (hws' ▸ hd)
  · refine hnext _ ?_
    rw [Writings.of_append, Writings.of_singleton, if_pos rfl, hws']

theorem safe_expose {global : GlobalVariable} {next : Unit → Construct α} (hws : h.of k = ws)
    (hnext : ∀ h', Writings.of h' k = ws → (provenance a).Safe (.construct k) h' (next ()) Q) :
    (provenance a).Safe (.construct k) h (Construct.expose global >>= next) Q := by
  intro h' e hlater _
  refine ⟨[], nofun, ?_, ?_⟩
  · rw [List.append_nil]
    exact hlater.inv.expose global
  · exact hnext _ (by rw [List.append_nil, of_relies hlater.relies, hws])

theorem safe_pure {v : α} (hws : h.of k = ws) (hQ : ∀ h', Writings.of h' k = ws → Q h' (.ok v)) :
    (provenance a).Safe (.construct k) h (pure v) Q :=
  fun h' _ hlater => hQ h' ((of_relies hlater.relies).trans hws)

end Steps

/-! ## Factories -/

section Factories

variable {a : Assembly} {h : Writings}

/-- What the factory of a key has to end with. -/
abbrev Writes (a : Assembly) (k : Key) (h : Writings) (t : Construct k.Value) : Prop :=
  (provenance a).Safe (.construct k) h t fun h' result => (provenance a).Concludes h' k result

theorem Writes.fail {k : Key} (hnone : h.of k = []) (fault : Fault) :
    Writes a k h (Task.fail (I := lowering) fault) :=
  fun _ _ hlater => ⟨trivial, (of_relies hlater.relies).trans hnone⟩

/-- A type that fails, or is no struct, has written nothing. -/
theorem writes_type (id : TypeId) (hnone : h.of (.type id) = []) :
    Writes a (.type id) h ((recipes a).factory (.type id)) := by
  simp only [recipes, Construct.typeDef]
  cases htype : a.type? id with
  | none => exact .fail hnone _
  | some t =>
    change Writes a (.type id) h (Construct.buildType a t)
    unfold Construct.buildType
    split
    · exact .fail hnone _
    · next hgeneric =>
      split
      · next hrepresentation =>
        -- Only a struct writes anything here; its members are types of their own and silent in this key.
        have hstruct : a.IsStruct id := ⟨t, htype, by simpa using hgeneric, hrepresentation⟩
        refine safe_bind (.mapM _ fun field => silent_type a field.type) hnone (fun members h' hws => ?_)
          fun _ _ hws => ⟨trivial, hws⟩
        change (provenance a).Safe _ _ (Construct.declare (.struct members) >>= pure) _
        exact safe_declare hws (.struct hstruct members) fun made h' hws =>
          safe_pure hws fun _ hws' _ => ⟨members, hws'⟩
      · exact .fail hnone _
      · next name hrepresentation =>
        have hsilent : (do
            let resolved ← Construct.representation? a t name
            Task.ofOption (I := lowering) (.unsupportedBuiltInType t.name name) resolved).Silent a :=
          .bind (silent_representation? a t name) fun resolved => .ofOption _ _
        refine safe_silent hsilent hnone fun h' result hws => ?_
        cases result with
        | error e => exact ⟨trivial, hws⟩
        | ok made =>
          rintro ⟨t', htype', -, hnone'⟩
          obtain rfl := Option.some.inj (htype.symm.trans htype')
          cases hrepresentation.symm.trans hnone'

theorem writes_shape (s : Shape) (hnone : h.of (.shape s) = []) :
    Writes a (.shape s) h ((recipes a).factory (.shape s)) := by
  change Writes a (.shape s) h (Construct.declare (.shape s) >>= pure)
  exact safe_declare hnone (.shape s) fun id h' hws => safe_pure hws fun _ hws' => hws'

theorem writes_constant (type : Id) (bits : Word) (hnone : h.of (.constant type bits) = []) :
    Writes a (.constant type bits) h ((recipes a).factory (.constant type bits)) := by
  change Writes a (.constant type bits) h (Construct.declare (.constant type bits) >>= pure)
  exact safe_declare hnone (.constant type bits) fun id h' hws => safe_pure hws fun _ hws' => hws'

theorem writes_variable (field : FieldId) (hnone : h.of (.variable field) = []) :
    Writes a (.variable field) h ((recipes a).factory (.variable field)) := by
  simp only [recipes, Construct.fieldDef]
  cases hfield : a.field? field with
  | none => exact .fail hnone _
  | some f =>
    have hlocation : a.location? field = f.location? := by rw [Assembly.location?, hfield]; rfl
    change Writes a (.variable field) h (Construct.buildGlobal a field f)
    -- Everything that can fail comes before the variable is declared.
    refine safe_bind (silent_type a f.type) hnone (fun valueType h₁ hws₁ => ?_)
      fun _ _ hws => ⟨trivial, hws⟩
    refine safe_bind (silent_shape _) hws₁ (fun pointerType h₂ hws₂ => ?_)
      fun _ _ hws => ⟨trivial, hws⟩
    refine safe_declare hws₂ (.global field pointerType _) fun made h₃ hws₃ => ?_
    dsimp only
    split
    · next location hsome =>
      rw [← hlocation] at hsome
      refine safe_decorate hws₃ (.located hsome pointerType _ made) fun h₄ hws₄ => ?_
      refine safe_expose hws₄ fun h₅ hws₅ => safe_pure hws₅ fun h₆ hws₆ =>
        ⟨pointerType, f.storage.storageClass, ?_⟩
      rw [hws₆, hsome]
      rfl
    · next hnone =>
      rw [← hlocation] at hnone
      refine safe_expose hws₃ fun h₄ hws₄ => safe_pure hws₄ fun h₅ hws₅ =>
        ⟨pointerType, f.storage.storageClass, ?_⟩
      rw [hws₅, hnone]
      rfl

theorem writes_function (key : FunctionKey) (hnone : h.of (.function key) = []) :
    Writes a (.function key) h ((recipes a).factory (.function key)) :=
  safe_silent (silent_buildFunction a key) hnone fun _ result hws => by
    cases result with
    | ok f => trivial
    | error e => exact ⟨trivial, hws⟩

theorem provenance_lawful (a : Assembly) : (provenance a).Lawful where
  within_of_act _ _ _ := trivial
  known_append _ _ _ hk := hk
  holds_append h l k v hl hv := hv.append hl
  abandoned_append h l k hl hk := by
    have hnothing : Writings.of h k ++ Writings.of l k = [] := by
      rw [Writings.of_eq_nil hl, hk, List.append_nil]
    exact (Writings.of_append h l k).trans hnothing
  fails_of_cycle _ _ := trivial
  factory r h _ hnone := by
    have hnone : Writings.of h r = [] := Writings.of_eq_nil hnone
    cases r with
    | type id => exact writes_type id hnone
    | shape s => exact writes_shape s hnone
    | constant type bits => exact writes_constant type bits hnone
    | «variable» field => exact writes_variable field hnone
    | function key => exact writes_function key hnone

end Factories

/-- Whatever silent threads ask for, and whatever steps they take: what has been written is what the
constructions have written. -/
theorem exists_recorded (a : Assembly) {α : Type} {tasks : List (Construct α)}
    (htasks : ∀ task ∈ tasks, task.Silent a) (schedule : List ThreadId) :
    ∃ h : Writings, (provenance a).Governed (fun _ _ _ => True)
      ((Machine.start tasks Emission.empty).follow (recipes a) schedule) h := by
  have hstart : (provenance a).Governed (fun _ _ _ => True) (Machine.start tasks Emission.empty) [] := by
    refine Discipline.Governed.start (recorded_empty a) fun t task htask => ?_
    refine Task.Confined.safe (htasks task (List.mem_of_getElem? htask)) ?_
      (fun r hr _ _ => ⟨hr, trivial⟩) fun _ _ _ => trivial
    rintro _ rfl h e he
    exact he.freshId
  obtain ⟨l, hend⟩ := hstart.follow (provenance_lawful a) schedule trivial
  exact ⟨_, hend⟩

end ShaderLowering
