import ShaderLowering.Proofs.Inventory.Sections
import ShaderLowering.Proofs.Sessions.Recursion
import ShaderLowering.Proofs.Sessions.Supervision

/-!
# What is exposed is what is reached

A discipline and a regime can be kept to at the same time (`Discipline.alongside`): the discipline says what
is put down, the regime which keys are asked for on account of which.  With the inventory for a discipline
this tells which global variables are exposed when entry points have been constructed: those that their
functions need, directly or not, and no others (`Surveyed`).  A function is answered only when all that it
needs is exposed (`Exposes`), because what it needs has been answered to it.
-/

namespace ShaderLowering

open Construction
open Relation (ReflTransGen)
open Spirv

/-! ## A discipline alongside a regime -/

namespace Construction.Discipline

variable {I : Interface} {σ ν α : Type}

/-- Beside what a discipline says, only certain keys are asked for, and something is had of each key that is
ready. -/
@[reducible] def alongside (D : Discipline I σ ν) (met : I.Key → Prop)
    (had : List (I.Key × ν) → I.Key → Prop) : Discipline I σ ν :=
  { D with
    known := fun h k => D.known h k ∧ met k
    holds := fun h k v => D.holds h k v ∧ had h k }

variable {D : Discipline I σ ν} {met asked : I.Key → Prop} {had : List (I.Key × ν) → I.Key → Prop}
  {goal : Goal I.Key} {h : List (I.Key × ν)} {bad : Prop} {t : Task I α}
  {Q : List (I.Key × ν) → Result I α → Prop} {R : List (I.Key × ν) → α → Prop}

/-- A task that is safe and obeys is safe alongside. -/
theorem Safe.alongside (hmono : ∀ h h' k, h <+: h' → had h k → had h' k) (hmet : ∀ k, asked k → met k)
    (hsafe : D.Safe goal h t Q) (hobeys : ∀ h', h <+: h' → t.Obeys asked (had h') bad (R h')) :
    (D.alongside met had).Safe goal h t fun h' result => Q h' result ∧ ∀ v, result = .ok v → R h' v := by
  -- Both proofs follow the same task: a step keeps the safety of the left and the obedience of
  -- the right, and an answer is good for both.
  induction t generalizing h with
  | done result =>
    intro h' s hlater
    refine ⟨hsafe h' s ⟨hlater.relies, hlater.inv, hlater.within⟩, fun v hv => ?_⟩
    subst hv
    exact hobeys h' (prefix_of_relies hlater.relies)
  | panic => exact (hobeys h List.prefix_rfl).elim
  | act action next ih =>
    intro h' s hlater hwithin
    obtain ⟨l, hown, hinv, hnext⟩ := hsafe h' s ⟨hlater.relies, hlater.inv, hlater.within⟩ hwithin
    refine ⟨l, hown, hinv, ih _ hnext fun h'' hlonger => hobeys h'' ?_ _⟩
    exact (prefix_of_relies hlater.relies).trans ((List.prefix_append _ l).trans hlonger)
  | peek k next => exact (hobeys h List.prefix_rfl).elim
  | request r next ih =>
    intro h' s hlater hvouched
    have hbefore := prefix_of_relies hlater.relies
    obtain ⟨hknown, hallowed, hnext⟩ := hsafe h' s ⟨hlater.relies, hlater.inv, hlater.within⟩
      fun htrusted htop => (hvouched htrusted htop).1
    obtain ⟨hasked, -, herror⟩ := hobeys h' hbefore
    refine ⟨⟨hknown, hmet _ hasked⟩, hallowed, fun result hanswer => ?_⟩
    cases result with
    | ok v =>
      obtain ⟨hholds, hhad⟩ : D.holds h' (I.key r) v ∧ had h' (I.key r) := hanswer
      exact ih _ (hnext _ hholds) fun h'' hlonger =>
        (hobeys h'' (hbefore.trans hlonger)).2.1 v (hmono h' h'' _ hlonger hhad)
    | error e =>
      have hended : D.Safe goal h' (next (.error e)) Q := hnext _ hanswer
      -- A key that failed is met by no one: obedience ends the task with the error itself.
      rw [herror e] at hended ⊢
      exact fun h'' s hlater =>
        ⟨hended h'' s ⟨hlater.relies, hlater.inv, hlater.within⟩, nofun⟩

/-- A discipline that is lawful stays so if what is asked for on account of a key that may be asked for may
be asked for, and what is had of a key follows from what is had of those that it asks for. -/
theorem Lawful.alongside (hD : D.Lawful) (asks : I.Key → I.Key → Prop) (wrong : I.Key → Prop)
    (hmono : ∀ h h' k, h <+: h' → had h k → had h' k)
    (hmet : ∀ k k', met k → asks k k' → met k')
    (hfactory : ∀ r, met (I.key r) → ∀ h, (D.recipes.factory r).Obeys (asks (I.key r)) (had h)
      (wrong (I.key r)) fun v => D.holds h (I.key r) v → had h (I.key r)) :
    (D.alongside met had).Lawful where
  within_of_act := hD.within_of_act
  known_append h l k hk := ⟨hD.known_append h l k hk.1, hk.2⟩
  holds_append h l k v hl hv :=
    ⟨hD.holds_append h l k v hl hv.1, hmono h _ k (List.prefix_append h l) hv.2⟩
  abandoned_append := hD.abandoned_append
  fails_of_cycle := hD.fails_of_cycle
  factory r h hk hnone := by
    have hsafe := Safe.alongside hmono (fun k' hasks => hmet _ k' hk.2 hasks)
      (hD.factory r h hk.1 hnone) fun h' _ => hfactory r hk.2 h'
    refine hsafe.mono fun h' result hresult => ?_
    cases result with
    | ok v => exact ⟨hresult.1, hresult.2 v rfl hresult.1⟩
    | error e => exact hresult.1

end Construction.Discipline

/-! ## What is exposed for a key -/

/-- Everything that a key needs, directly or not, and that is a global variable has been exposed. -/
def Exposes (a : Assembly) (h : Inventory) (k : Key) : Prop :=
  ∀ field, ReflTransGen (Needs a) k (.variable field) →
    ∃ g, (Key.variable field, Item.exposed g) ∈ h

section Exposes

variable {a : Assembly} {h h' : Inventory} {k : Key}

theorem Exposes.mono (hlonger : h <+: h') (hk : Exposes a h k) : Exposes a h' k := by
  intro field hpath
  obtain ⟨g, hg⟩ := hk field hpath
  exact ⟨g, hlonger.subset hg⟩

/-- What has been given all that it needs has everything exposed, apart from itself. -/
theorem Supplied.exposes {v : k.Value} (hk : Supplied a (Exposes a h) k) (hv : Complete a h k v) :
    Exposes a h k := by
  intro field hpath
  rcases hpath.cases_head with rfl | ⟨k', hneeds, hrest⟩
  · obtain ⟨pointerType, hof⟩ := hv
    refine ⟨v, ?_⟩
    rw [← Inventory.mem_of, hof]
    simp
  · exact hk.2 k' hneeds field hrest

/-- The inventory of a run whose threads ask for certain keys on their own account. -/
@[reducible] def survey (a : Assembly) (roots : Key → Prop) : Discipline lowering Emission Item :=
  (inventory a False).alongside ((regime a).Met roots) (Exposes a)

theorem survey_lawful (hnumbered : a.Numbered) (roots : Key → Prop) : (survey a roots).Lawful := by
  refine Discipline.Lawful.alongside (inventory_lawful a False) (Asks a) (Wrong a)
    (fun h h' k => Exposes.mono) (fun k k' hk hasks => hk.asks (regime_lawful hnumbered) hasks)
    fun k hk h => ?_
  exact .mono (keeps_factory hnumbered _ k hk.1) fun v hsupplied hv => hsupplied.exposes hv.complete

end Exposes

/-! ## Runs that have come to an end -/

/-- What the inventory tells of a run that has constructed entry points. -/
structure Surveyed (a : Assembly) (entries : List EntryPoint) (e : Emission) (ready : List ReadyEntry)
    (h : Inventory) : Prop where
  tallies : Tallies a h e
  met : ∀ note ∈ h, (regime a).Met (Rooted a entries) note.1
  exposes : ∀ k, Rooted a entries k → Exposes a h k
  ready : ∃ function? : FunctionKey → Option Function,
    entries.mapM (ReadyEntry.ofEntry a function?) = .ok ready ∧ ∀ key f, function? key = some f →
      Had h (.function key) f ∧ FormedFor a h (.function key) f

section Runs

variable {a : Assembly} {requested : List EntryPoint} {entries : List EntryPoint} {config : Config}
  {e : Emission} {ready : List ReadyEntry} {m : Module} {h : Inventory}

/-- Workers keep to the survey of the entry points that they are dealt. -/
theorem survey_follow (hnumbered : a.Numbered) (dealt : List (List EntryPoint))
    (honly : ∀ part ∈ dealt, ∀ entry ∈ part, entry ∈ entries) (schedule : List ThreadId) :
    ∃ h, (survey a (Rooted a entries)).Governed (fun _ _ _ => True)
      ((WorkerPool.start a dealt).follow a schedule) h := by
  have hrooted : ∀ part ∈ dealt, ∀ k, Rooted a part k → (regime a).Met (Rooted a entries) k := by
    rintro part hpart _ ⟨entry, hentry, method, hmethod, rfl⟩
    exact .of_root trivial ⟨entry, honly part hpart entry hentry, method, hmethod, rfl⟩
  have hstart : (survey a (Rooted a entries)).Governed (fun _ _ _ => True)
      (WorkerPool.start a dealt) [] := by
    refine .start (Tallies.empty a) fun t task htask => ?_
    obtain ⟨part, hpart, rfl⟩ := List.mem_map.mp (List.mem_of_getElem? htask)
    have hsafe : (inventory a False).Safe .top [] (Construct.entryPoints a part) fun _ _ => True :=
      safe_of_silent (asks_entryPoints a part) fun k hk h _ => known_of_components_eq hk h
    exact .mono (fun _ _ _ => trivial) (hsafe.alongside (fun h h' k => Exposes.mono)
      (hrooted part hpart) fun h' _ => entryPoints_obeys (Exposes a h'))
  obtain ⟨h, hgoverned⟩ := hstart.follow (survey_lawful hnumbered _) schedule trivial
  exact ⟨h, hgoverned⟩

/-- What workers come to that succeed with entry points can be told from the survey. -/
theorem surveyed_of_governed {pool : WorkerPool}
    (hm : (survey a (Rooted a entries)).Governed (fun _ _ _ => True) pool h)
    (hready : entries.mapM (ReadyEntry.ofEntry a pool.function?) = .ok ready) :
    Surveyed a entries pool.world.shared ready h := by
  have hholds : ∀ key f, pool.function? key = some f →
      (survey a (Rooted a entries)).holds h (.function key) f := fun key f hf =>
    hm.ready (.function key) f (World.ready?_eq_some.mp hf)
  refine ⟨hm.inv, fun note hnote => (hm.known _ (hm.noted note hnote)).2, ?_, pool.function?, hready,
    fun key f hf => ⟨(hholds key f hf).1.had, (hholds key f hf).1.formed⟩⟩
  rintro _ ⟨entry, hentry, method, hmethod, rfl⟩
  obtain ⟨r, -, hr⟩ := forall₂_mem_left (mapM_eq_ok.mp hready) hentry
  obtain ⟨method', f, mode, hmethod', hf, -⟩ := ReadyEntry.ofEntry_eq_ok.mp hr
  obtain rfl := Option.some.inj (hmethod.symm.trans hmethod')
  exact (hholds _ f hf).2

/-- A run that has made a module has an inventory. -/
theorem Compiled.surveyed (hnumbered : a.Numbered) (hcompiled : Compiled a requested config e ready m) :
    (∃ h, Surveyed a (firstAppearances requested) e ready h) ∧ m = e.module config ready := by
  obtain ⟨dealt, schedule, pool, rfl, -, hdeals, -, rfl, hready, rfl⟩ := hcompiled.exists_pool
  obtain ⟨h, hm⟩ := survey_follow hnumbered dealt hdeals.only schedule
  exact ⟨⟨h, surveyed_of_governed hm hready⟩, rfl⟩

end Runs

/-! ## The fields of the variables -/

/-- A function loads or stores a field. -/
def Accesses (a : Assembly) (key : FunctionKey) (field : FieldId) : Prop :=
  ∃ p wire slot, a.specialized? key = some p ∧
    (p.Performs (.loadField slot wire) ∨ p.Performs (.storeField wire slot)) ∧
      EntityId.ofWire? wire = some field

theorem accesses_iff {a : Assembly} {key : FunctionKey} {field : FieldId} :
    Accesses a key field ↔ Needs a (.function key) (.variable field) := by
  constructor
  · rintro ⟨p, wire, slot, hp, hop | hop, hfield⟩
    · exact .global hp hop rfl hfield
    · exact .global hp hop rfl hfield
  · intro hneeds
    cases hneeds with
    | @global _ p op wire _ hp hop hwire hfield =>
      cases op with
      | loadField destination wire' =>
        obtain rfl := Option.some.inj hwire
        exact ⟨p, wire', destination, hp, .inl hop, hfield⟩
      | storeField wire' source =>
        obtain rfl := Option.some.inj hwire
        exact ⟨p, wire', source, hp, .inr hop, hfield⟩
      | _ => cases hwire

/-- The global variables that entry points need are those of the fields that the functions access that they
reach. -/
theorem exists_accesses_of_needs {a : Assembly} {key : FunctionKey} {field : FieldId}
    (hpath : ReflTransGen (Needs a) (.function key) (.variable field)) :
    ∃ key', ReflTransGen (Edge a) (.function key) (.function key') ∧ Accesses a key' field := by
  have hleads := leads_of_needs (n := .function key) hpath
  generalize hk : Key.variable field = k at hleads
  cases hleads with
  | @node n' _ => cases n' <;> cases hk
  | @global n' field' hedges hneeds =>
    obtain rfl := Key.variable.inj hk
    cases n' with
    | function key' => exact ⟨key', hedges, accesses_iff.mpr hneeds⟩
    | type id => cases hneeds

namespace Surveyed

variable {a : Assembly} {requested : List EntryPoint} {e : Emission} {ready : List ReadyEntry}
  {h : Inventory} (hh : Surveyed a (firstAppearances requested) e ready h)

include hh

/-- Nothing is put down for a global variable unless its field is accessed. -/
theorem accessed_of_mem {field : FieldId} {item : Item} (hmem : (Key.variable field, item) ∈ h) :
    ∃ key, (Node.function key).Reached a requested ∧ Accesses a key field := by
  obtain ⟨-, root, hroot, hpath⟩ := hh.met _ hmem
  obtain ⟨entry, hentry, rfl⟩ := rooted_iff.mp hroot
  obtain ⟨key, hedges, haccesses⟩ := exists_accesses_of_needs (needs_of_asks hpath Nat.two_pos)
  exact ⟨key, ⟨entry, hentry, hedges⟩, haccesses⟩

/-- The global variable of every field that is accessed is exposed. -/
theorem exposed_of_accessed {key : FunctionKey} {field : FieldId}
    (hreached : (Node.function key).Reached a requested) (haccesses : Accesses a key field) :
    ∃ g, (Key.variable field, Item.exposed g) ∈ h := by
  obtain ⟨entry, hentry, hedges⟩ := hreached
  refine hh.exposes (.function entry) (rooted_iff.mpr ⟨entry, hentry, rfl⟩) field ?_
  exact .tail (reflTransGen_needs_of_edges hedges) (accesses_iff.mp haccesses)

/-- The global variables that are put down are those of static fields. -/
theorem isStatic_of_mem {field : FieldId} {item : Item} (hmem : (Key.variable field, item) ∈ h) :
    a.IsStatic field :=
  (hh.met _ hmem).1

end Surveyed

end ShaderLowering
