import ShaderLowering.Lowering.Workers
import ShaderLowering.Proofs.Lowering.Functions
import ShaderLowering.Proofs.Threads.OneThread

/-!
# Pools of workers keep to the ledger

Workers that construct functions, be it of given keys or of entry points, are governed by the ledger
under every schedule (`governed_of_makes`).  So a function that is ready is `Lowered`, and when all
workers have come to their end every name that has an id belongs to an entity that is ready or cannot
be constructed.

Whether a worker fails is a matter of what it is to construct alone: `makes_functions` and
`makes_entryPoints` say that it fails only if one of its functions is not constructible, and
otherwise ends with all of them.
-/

namespace ShaderLowering

open Construction
open Relation (ReflTransGen)
open Spirv (Id Word)

/-- Constructs the functions of keys one after another. -/
def Construct.functions (keys : List FunctionKey) : Construct Unit :=
  keys.forM fun key => do
    let _ ← Construct.function key

/-- An entry point names a method whose function can be constructed. -/
def EntryPoint.Available (a : Assembly) (entry : EntryPoint) : Prop :=
  ∃ m, a.method? entry.method = some m ∧ Constructible a (.function (FunctionKey.ofMethod m))

/-- What a task of a worker has to end with. -/
@[reducible] def Finishes {α : Type} (bad : Prop) (R : History → α → Prop) :
    History → Result lowering α → Prop :=
  fun h result => match result with
    | .ok v => R h v
    | .error _ => bad

variable {a : Assembly} {roots : Key → Prop} {bad : Prop} {h : History} {α : Type}

/-! ## Tasks of workers -/

/-- Tasks for the members of a list are carried out one after another. -/
theorem Makes.forM {xs : List α} {t : α → Construct Unit} {P : α → History → Prop}
    (hgrow : ∀ x h' l, P x h' → P x (h' ++ l))
    (ht : ∀ x ∈ xs, ∀ h', Makes a roots .top bad h' (t x) fun h'' _ => P x h'') :
    Makes a roots .top bad h (xs.forM t) fun h' _ => ∀ x ∈ xs, P x h' := by
  induction xs generalizing h with
  | nil => exact .pure fun _ _ => nofun
  | cons x xs ih =>
    refine .bind (ht x (by simp) h) fun h₁ _ _ hx => ?_
    refine .mono (ih fun x' hx' => ht x' (by simp [hx'])) ?_
    rintro _ _ ⟨l, rfl⟩ hxs
    exact List.forall_mem_cons.mpr ⟨hgrow x h₁ l hx, hxs⟩

/-- A function is had for a worker. -/
theorem makes_root {key : FunctionKey} (hroot : roots (.function key))
    (hbad : ¬Constructible a (.function key) → bad) :
    Makes a roots .top bad h (do let _ ← Construct.function key) fun h' _ =>
      Constructible a (.function key) ∧ Name.own key 0 ∈ names h' := by
  refine .bind (.function ⟨_, hroot, .refl⟩ trivial hbad) fun h₁ f _ ⟨_, hkey, hf⟩ =>
    .pure fun h₂ hquiet => ?_
  subst hkey
  exact ⟨hf.constructible, (hf.later hquiet.prefix).id_mem.1⟩

theorem makes_functions {keys : List FunctionKey} (hroots : ∀ key ∈ keys, roots (.function key)) :
    Makes a roots .top (∃ key ∈ keys, ¬Constructible a (.function key)) h
      (Construct.functions keys) fun h' _ =>
        ∀ key ∈ keys, Constructible a (.function key) ∧ Name.own key 0 ∈ names h' :=
  .forM (fun key h' l hkey => ⟨hkey.1, by simp [hkey.2]⟩) fun key hkey _ =>
    makes_root (hroots key hkey) fun hno => ⟨key, hkey, hno⟩

theorem makes_entryPoints {entries : List EntryPoint}
    (hroots : ∀ entry ∈ entries, ∀ m, a.method? entry.method = some m →
      roots (.function (FunctionKey.ofMethod m))) :
    Makes a roots .top (∃ entry ∈ entries, ¬entry.Available a) h
      (Construct.entryPoints a entries) fun h' _ => ∀ entry ∈ entries, ∃ m,
        a.method? entry.method = some m ∧ Constructible a (.function (FunctionKey.ofMethod m)) ∧
          Name.own (FunctionKey.ofMethod m) 0 ∈ names h' := by
  refine .forM ?_ fun entry hentry h' => ?_
  -- What has been had stays so while others write.
  · rintro entry h' l ⟨m, hm, hconstructible, hown⟩
    exact ⟨m, hm, hconstructible, by simp [hown]⟩
  refine .bind (.ofOption fun hnone => ⟨entry, hentry, ?_⟩) fun h₁ m _ ⟨_, hm⟩ => ?_
  · rintro ⟨m, hm, -⟩
    rw [hnone] at hm
    cases hm
  · refine .mono (makes_root (hroots entry hentry m hm) fun hno => ⟨entry, hentry, ?_⟩)
      fun h₂ _ _ hkey => ⟨m, hm, hkey⟩
    rintro ⟨m', hm', hconstructible⟩
    obtain rfl := Option.some.inj (hm.symm.trans hm')
    exact hno hconstructible

/-! ## Governed pools -/

/-- Workers whose tasks keep to the ledger are governed by it, whatever the schedule. -/
theorem governed_of_each {tasks : List (Construct α)} {bad : ThreadId → Prop}
    {R : ThreadId → History → α → Prop}
    (htasks : ∀ (t : ThreadId) task, tasks[t]? = some task →
      Makes a roots .top (bad t) [] task (R t)) (schedule : List ThreadId)
    (hwithin : ((Machine.start tasks Emission.empty).follow (recipes a) schedule).world.shared.ids.issued
      < UInt32.size) :
    ∃ h, (ledger a roots).Governed (fun t => Finishes (bad t) (R t))
      ((Machine.start tasks Emission.empty).follow (recipes a) schedule) h := by
  have hstart : (ledger a roots).Governed (fun t => Finishes (bad t) (R t))
      (Machine.start tasks Emission.empty) [] := by
    refine .start .empty fun t task htask => ?_
    refine Discipline.Safe.mono (fun h' result hresult => ?_) (htasks t task htask)
    cases result with
    | ok v => exact hresult.2
    | error e => exact hresult
  obtain ⟨l, hend⟩ := hstart.follow (ledger_lawful a roots) schedule hwithin
  exact ⟨_, hend⟩

theorem governed_of_makes {tasks : List (Construct α)} {R : History → α → Prop}
    (htasks : ∀ task ∈ tasks, Makes a roots .top bad [] task R) (schedule : List ThreadId)
    (hwithin : ((Machine.start tasks Emission.empty).follow (recipes a) schedule).world.shared.ids.issued
      < UInt32.size) :
    ∃ h, (ledger a roots).Governed (fun _ => Finishes bad R)
      ((Machine.start tasks Emission.empty).follow (recipes a) schedule) h :=
  governed_of_each (fun _ task htask => htasks task (List.mem_of_getElem? htask)) schedule hwithin

section Governed

variable {P : ThreadId → History → Result lowering α → Prop} {m : Machine lowering Emission α}
  {k : Key}

theorem Reached.constructible (hroots : ∀ k, roots k → Constructible a k)
    (hreached : Reached a roots k) : Constructible a k := by
  obtain ⟨root, hroot, hpath⟩ := hreached
  induction hpath with
  | refl => exact hroots root hroot
  | tail _ hneeds ih => exact ih.needs hneeds

theorem Known.constructible (hroots : ∀ k, roots k → Constructible a k) (hk : Known a roots h k) :
    Constructible a k := by
  cases k with
  | shape s => exact .shape s
  | constant type bits => exact .constant type bits
  | type id => exact Reached.constructible hroots hk
  | «variable» field => exact Reached.constructible hroots hk.1
  | function key => exact Reached.constructible hroots hk

/-- When all workers have come to their end, what has been noted for a constructible entity has been
noted for an entity that is ready. -/
theorem ready_of_noted (hm : (ledger a roots).Governed P m h) (hover : m.isOver = true) {note : Note}
    (hmem : (k, note) ∈ h) (hconstructible : Constructible a k) :
    ∃ v, m.world.ready? k = some v ∧ Holds a h k v := by
  have hsome := hm.noted _ hmem
  obtain ⟨state, hstate⟩ := Option.isSome_iff_exists.mp hsome
  cases state with
  | building => exact absurd hstate (hm.settled hover k)
  | ready v => exact ⟨v, World.ready?_eq_some.mpr hstate, hm.ready k v hstate⟩
  | failed => exact absurd hconstructible (hm.failed k hstate)

/-- When all workers have come to their end, the variable of a constructible field that has an id is
exposed. -/
theorem exposed_of_mem (hm : (ledger a roots).Governed P m h) (hover : m.isOver = true)
    {field : FieldId} (hmem : Name.global field ∈ names h)
    (hconstructible : Constructible a (.variable field)) : field ∈ exposed h := by
  obtain ⟨k', hnoted⟩ := mem_names.mp hmem
  have hkey : Key.variable field = k' := hm.inv.keyed k' _ hnoted
  subst hkey
  obtain ⟨v, -, hholds⟩ := ready_of_noted hm hover hnoted hconstructible
  have hexpose : Note.expose field ∈ notes h (.variable field) := by
    rw [hholds.notes _ rfl, variableNotes]
    simp
  exact mem_exposed.mpr ⟨_, mem_notes.mp hexpose⟩

end Governed

end ShaderLowering
