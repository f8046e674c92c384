import ShaderLowering.Proofs.Lowering.Pools
import ShaderLowering.Proofs.Modules.Header
import ShaderLowering.Proofs.Threads.Events

/-!
# Runs that end with a module

A module is made on one thread or by workers that follow a schedule (`Compiled`); the first is the
second with one worker (`compiled_of_compile`).  What matters of such a run is what it has written down
and noted, and which functions it has made of the entry points: it has `Materialized` them
(`Compiled.materialized`).

Whether workers succeed is a matter of the entry points alone: they do exactly if each of them is
`Available` (`WorkerPool.result_isOk`, `WorkerPool.result_isError`).
-/

namespace ShaderLowering

open Construction
open Spirv

/-- Workers are dealt nothing but entry points of a list, and all of them unless one of the workers
fails. -/
structure Deals (dealt : List (List EntryPoint)) (entries : List EntryPoint) (pool : WorkerPool) :
    Prop where
  only : ∀ part ∈ dealt, ∀ entry ∈ part, entry ∈ entries
  all : pool.failure? = none → ∀ entry ∈ entries, ∃ part ∈ dealt, entry ∈ part

/-- A run has made a module: what it has written, what has become of the entry points, and the
module. -/
inductive Compiled (a : Assembly) (requested : List EntryPoint) (config : Config) :
    Emission → List ReadyEntry → Module → Prop
  /-- One thread constructs the entry points in their order. -/
  | alone {s : Session} {ready : List ReadyEntry}
      (hrun : Session.start.run a (Construct.entryPoints a (firstAppearances requested)) =
        (.returned (.ok ()), s))
      (hready : (firstAppearances requested).mapM (ReadyEntry.ofEntry a s.function?) = .ok ready) :
      Compiled a requested config s.shared ready (s.shared.module config ready)
  /-- Workers construct the entry points dealt to them. -/
  | pool {dealt : List (List EntryPoint)} {schedule : List ThreadId} {pool : WorkerPool}
      {ready : List ReadyEntry} (hrun : (WorkerPool.start a dealt).follow a schedule = pool)
      (hover : pool.isOver = true) (hdeals : Deals dealt (firstAppearances requested) pool)
      (hsucceeded : pool.failure? = none)
      (hready : (firstAppearances requested).mapM (ReadyEntry.ofEntry a pool.function?) = .ok ready) :
      Compiled a requested config pool.world.shared ready (pool.world.shared.module config ready)

/-- A computation that succeeds for each member of a list succeeds for the list. -/
theorem exists_mapM_eq_ok {α β ε : Type} {F : α → Except ε β} {xs : List α}
    (h : ∀ x ∈ xs, ∃ y, F x = .ok y) : ∃ ys, xs.mapM F = .ok ys := by
  obtain ⟨ys, hys⟩ := exists_forall₂ h
  exact ⟨ys, mapM_eq_ok.mpr hys⟩

section Compile

variable {a : Assembly} {requested : List EntryPoint} {config : Config} {m : Module}

theorem Emission.assemble_eq_ok {e : Emission} {ready? : FunctionKey → Option Function}
    {entries : List EntryPoint} (h : e.assemble a config ready? entries = .ok m) :
    ∃ ready, entries.mapM (ReadyEntry.ofEntry a ready?) = .ok ready ∧ m = e.module config ready := by
  unfold assemble at h
  cases hready : entries.mapM (ReadyEntry.ofEntry a ready?) with
  | error error =>
    rw [hready] at h
    cases h
  | ok ready =>
    rw [hready] at h
    exact ⟨ready, rfl, (Except.ok.inj h).symm⟩

/-- What is compiled on one thread is the outcome of such a run. -/
theorem compiled_of_compile (h : compile a requested config = .returned (.ok m)) :
    ∃ e ready, Compiled a requested config e ready m := by
  unfold compile compileFrom at h
  dsimp only at h
  split at h
  · cases h
  · split at h
    · cases h
    · next s hrun =>
      obtain ⟨ready, hready, rfl⟩ := Emission.assemble_eq_ok (Outcome.returned.inj h)
      exact ⟨s.shared, ready, .alone hrun hready⟩
    · cases h
    · cases h

/-- What is compiled on workers is the outcome of such a run. -/
theorem compiled_of_compileOn {deal : List EntryPoint → List (List EntryPoint)}
    {schedule : List ThreadId} (h : compileOn a requested config deal schedule = some (.ok m))
    (hdeals : Deals (deal (firstAppearances requested)) (firstAppearances requested)
      ((WorkerPool.start a (deal (firstAppearances requested))).follow a schedule)) :
    ∃ e ready, Compiled a requested config e ready m := by
  unfold compileOn at h
  dsimp only at h
  split at h
  · cases Option.some.inj h
  · split at h
    · next hover =>
      have hresult := Option.some.inj h
      unfold WorkerPool.result at hresult
      split at hresult
      · cases hresult
      · next hsucceeded =>
        obtain ⟨ready, hready, rfl⟩ := Emission.assemble_eq_ok hresult
        exact ⟨_, ready, .pool rfl hover hdeals hsucceeded hready⟩
    · cases h

end Compile

/-! ## What is known of such a run -/

/-- The function of an entry point of a list. -/
def Rooted (a : Assembly) (entries : List EntryPoint) (k : Key) : Prop :=
  ∃ entry ∈ entries, ∃ m, a.method? entry.method = some m ∧ k = .function (FunctionKey.ofMethod m)

/-- What is known of a run that has made a module. -/
structure Materialized (a : Assembly) (entries : List EntryPoint) (e : Emission)
    (ready : List ReadyEntry) (h : History) : Prop where
  account : Account a h e
  constructible : ∀ k, Rooted a entries k → Constructible a k
  known : ∀ k note, (k, note) ∈ h → Known a (Rooted a entries) h k
  settled : ∀ k note, (k, note) ∈ h → ∃ v, Holds a h k v
  ready : ∃ function? : FunctionKey → Option Function,
    entries.mapM (ReadyEntry.ofEntry a function?) = .ok ready ∧
      ∀ key f, function? key = some f → f.key = key ∧ Lowered a (names h) f

namespace WorkerPool

variable {a : Assembly} {dealt : List (List EntryPoint)} {entries : List EntryPoint}
  {schedule : List ThreadId} {pool : WorkerPool} {h : History}

/-- What a worker has to end with: the functions of the entry points dealt to it. -/
@[reducible] def Achieves (a : Assembly) (entries : List EntryPoint)
    (dealt : List (List EntryPoint)) (t : ThreadId) : History → Result lowering Unit → Prop :=
  Finishes (∃ entry ∈ entries, ¬entry.Available a) fun h _ => ∀ entry ∈ dealt[t]?.getD [], ∃ m,
    a.method? entry.method = some m ∧ Constructible a (.function (FunctionKey.ofMethod m)) ∧
      Name.own (FunctionKey.ofMethod m) 0 ∈ names h

/-- Workers that construct entry points keep to the ledger. -/
theorem governed (hrun : (start a dealt).follow a schedule = pool)
    (honly : ∀ part ∈ dealt, ∀ entry ∈ part, entry ∈ entries)
    (hissued : pool.world.shared.ids.issued < UInt32.size) :
    ∃ h, (ledger a (Rooted a entries)).Governed (Achieves a entries dealt) pool h := by
  subst hrun
  refine governed_of_each (fun t task htask => ?_) schedule hissued
  rw [List.getElem?_map] at htask
  obtain ⟨part, hpart, rfl⟩ := Option.map_eq_some_iff.mp htask
  have hmem := honly part (List.mem_of_getElem? hpart)
  rw [hpart, Option.getD_some]
  refine .weaken (makes_entryPoints fun entry hentry m hm => ⟨entry, hmem entry hentry, m, hm, rfl⟩) ?_
  rintro ⟨entry, hentry, hunavailable⟩
  exact ⟨entry, hmem entry hentry, hunavailable⟩

section Governed

variable (hgoverned : (ledger a (Rooted a entries)).Governed (Achieves a entries dealt) pool h)
  (hissued : pool.world.shared.ids.issued < UInt32.size)

include hgoverned hissued

/-- A worker fails only if an entry point is not available. -/
theorem exists_unavailable_of_failure {error : Error} (hfailure : pool.failure? = some error) :
    ∃ entry ∈ entries, ¬entry.Available a := by
  obtain ⟨thread, hthread, hending⟩ := List.exists_of_findSome?_eq_some hfailure
  obtain ⟨t, ht⟩ := List.mem_iff_getElem?.mp hthread
  split at hending
  · next e hended =>
    obtain ⟨r, hr, hends⟩ := hgoverned.ended hissued ht hended
    obtain rfl := Option.some.inj hr
    exact hends
  · cases hending

/-- Where no worker fails, the function of every entry point that was dealt is constructed. -/
theorem constructed_of_dealt (hover : pool.isOver = true) (hsucceeded : pool.failure? = none)
    (hlength : pool.threads.length = dealt.length) {part : List EntryPoint} (hpart : part ∈ dealt)
    {entry : EntryPoint} (hentry : entry ∈ part) : ∃ m, a.method? entry.method = some m ∧
      Constructible a (.function (FunctionKey.ofMethod m)) ∧
        Name.own (FunctionKey.ofMethod m) 0 ∈ names h := by
  obtain ⟨t, ht⟩ := List.mem_iff_getElem?.mp hpart
  have hin : t < pool.threads.length := hlength ▸ (List.getElem?_eq_some_iff.mp ht).1
  have hthread : pool.threads[t]? = some pool.threads[t] := List.getElem?_eq_getElem hin
  have hmem : pool.threads[t] ∈ pool.threads := List.getElem_mem hin
  obtain ⟨ending, hending⟩ := Option.isSome_iff_exists.mp (List.all_eq_true.mp hover _ hmem)
  obtain ⟨r, rfl, hends⟩ := hgoverned.ended hissued hthread hending
  cases r with
  | error error =>
    have hnone := List.findSome?_eq_none_iff.mp hsucceeded _ hmem
    rw [hending] at hnone
    cases hnone
  | ok _ =>
    have hall : ∀ entry ∈ dealt[t]?.getD [], ∃ m, a.method? entry.method = some m ∧
        Constructible a (.function (FunctionKey.ofMethod m)) ∧
          Name.own (FunctionKey.ofMethod m) 0 ∈ names h := hends
    rw [ht, Option.getD_some] at hall
    exact hall entry hentry

end Governed

theorem length_threads_follow (hrun : (start a dealt).follow a schedule = pool) :
    pool.threads.length = dealt.length := by
  subst hrun
  refine Machine.follow_preserves (P := fun m => m.threads.length = dealt.length) ?_ ?_ schedule
  · exact fun m t m' hm hstep => (Machine.length_threads_step hstep).trans hm
  · simp [start, Machine.start]

/-- Functions that are ready are what their keys say. -/
theorem lowered_of_function? (hgoverned :
      (ledger a (Rooted a entries)).Governed (Achieves a entries dealt) pool h)
    {key : FunctionKey} {f : Function} (hf : pool.function? key = some f) :
    f.key = key ∧ Lowered a (names h) f :=
  (hgoverned.ready _ _ (World.ready?_eq_some.mp hf)).right

/-- A function that has an id is ready when all workers have come to their end. -/
theorem function?_of_mem (hgoverned :
      (ledger a (Rooted a entries)).Governed (Achieves a entries dealt) pool h)
    (hover : pool.isOver = true) {key : FunctionKey} (hmem : Name.own key 0 ∈ names h)
    (hconstructible : Constructible a (.function key)) : ∃ f, pool.function? key = some f := by
  obtain ⟨k, hnoted⟩ := mem_names.mp hmem
  have hkey : Key.function key = k := hgoverned.inv.keyed k _ hnoted
  subst hkey
  obtain ⟨f, hf, -⟩ := ready_of_noted hgoverned hover hnoted hconstructible
  exact ⟨f, hf⟩

section Finished

variable (hrun : (start a dealt).follow a schedule = pool) (hover : pool.isOver = true)
  (hdeals : Deals dealt entries pool) (hissued : pool.world.shared.ids.issued < UInt32.size)

include hrun hover hdeals hissued

theorem materialized (hsucceeded : pool.failure? = none) {ready : List ReadyEntry}
    (hready : entries.mapM (ReadyEntry.ofEntry a pool.function?) = .ok ready) :
    ∃ h, Materialized a entries pool.world.shared ready h := by
  obtain ⟨h, hgoverned⟩ := governed hrun hdeals.only hissued
  have hroots : ∀ k, Rooted a entries k → Constructible a k := by
    rintro k ⟨entry, hentry, m, hm, rfl⟩
    obtain ⟨part, hpart, hin⟩ := hdeals.all hsucceeded entry hentry
    obtain ⟨m', hm', hconstructible, -⟩ := constructed_of_dealt hgoverned hissued hover hsucceeded
      (length_threads_follow hrun) hpart hin
    obtain rfl := Option.some.inj (hm.symm.trans hm')
    exact hconstructible
  have hknown : ∀ k note, (k, note) ∈ h → Known a (Rooted a entries) h k := fun k note hmem =>
    hgoverned.known k (hgoverned.noted _ hmem)
  refine ⟨h, hgoverned.inv, hroots, hknown, fun k note hmem => ?_, pool.function?, hready,
    fun key f hf => lowered_of_function? hgoverned hf⟩
  obtain ⟨v, -, hholds⟩ := ready_of_noted hgoverned hover hmem
    (Known.constructible hroots (hknown k note hmem))
  exact ⟨v, hholds⟩

/-- Where every entry point is available, workers succeed. -/
theorem result_isOk (havailable : ∀ entry ∈ entries, entry.Available a)
    (hmodels : ∀ entry ∈ entries, ∃ mode, entry.model.mode = .ok mode) (config : Config) :
    ∃ m, pool.result a config entries = .ok m := by
  obtain ⟨h, hgoverned⟩ := governed hrun hdeals.only hissued
  -- A failure names an entry point that is not available.
  have hsucceeded : pool.failure? = none := by
    cases hfailure : pool.failure? with
    | none => rfl
    | some error =>
      obtain ⟨entry, hentry, hno⟩ := exists_unavailable_of_failure hgoverned hissued hfailure
      exact absurd (havailable entry hentry) hno
  have hready : ∀ entry ∈ entries, ∃ r, ReadyEntry.ofEntry a pool.function? entry = .ok r := by
    intro entry hentry
    obtain ⟨part, hpart, hin⟩ := hdeals.all hsucceeded entry hentry
    obtain ⟨m, hm, hconstructible, hmem⟩ := constructed_of_dealt hgoverned hissued hover hsucceeded
      (length_threads_follow hrun) hpart hin
    obtain ⟨f, hf⟩ := function?_of_mem hgoverned hover hmem hconstructible
    obtain ⟨mode, hmode⟩ := hmodels entry hentry
    exact ⟨_, ReadyEntry.ofEntry_eq_ok.mpr ⟨m, f, mode, hm, hf, hmode, rfl⟩⟩
  obtain ⟨ready, hall⟩ := exists_mapM_eq_ok hready
  rw [result, hsucceeded]
  exact ⟨pool.world.shared.module config ready, by rw [Emission.assemble, hall]; rfl⟩

/-- Where an entry point is not available, workers fail. -/
theorem result_isError (hunavailable : ∃ entry ∈ entries, ¬entry.Available a) (config : Config) :
    ∃ error, pool.result a config entries = .error error := by
  obtain ⟨h, hgoverned⟩ := governed hrun hdeals.only hissued
  cases hfailure : pool.failure? with
  | some error => exact ⟨error, by rw [result, hfailure]⟩
  | none =>
    obtain ⟨entry, hentry, hno⟩ := hunavailable
    obtain ⟨part, hpart, hin⟩ := hdeals.all hfailure entry hentry
    obtain ⟨m, hm, hconstructible, -⟩ := constructed_of_dealt hgoverned hissued hover hfailure
      (length_threads_follow hrun) hpart hin
    exact absurd ⟨m, hm, hconstructible⟩ hno

end Finished

end WorkerPool

section Alone

variable {a : Assembly} {requested : List EntryPoint} {config : Config} {s : Session}
  {result : Except Error Unit}

/-- One thread that constructs entry points in their order is a pool of one worker. -/
theorem exists_pool_of_run {entries : List EntryPoint}
    (hrun : Session.start.run a (Construct.entryPoints a entries) = (.returned result, s)) :
    ∃ schedule pool, (WorkerPool.start a [entries]).follow a schedule = pool ∧
      pool.isOver = true ∧ pool.failure? = (match result with | .ok _ => none | .error e => some e) ∧
      pool.world.shared = s.shared ∧ pool.function? = s.function? := by
  obtain ⟨schedule, w, hfollow, hmirrors⟩ := Task.execute_follow hrun
  refine ⟨schedule, _, hfollow, rfl, ?_, hmirrors.shared, ?_⟩
  · cases result <;> rfl
  · funext key
    exact hmirrors.ready? _

/-- Workers that are all dealt all entry points are dealt them well. -/
theorem deals_of_all {entries : List EntryPoint} {dealt : List (List EntryPoint)}
    (pool : WorkerPool) (hne : dealt ≠ []) (hall : ∀ part ∈ dealt, part = entries) :
    Deals dealt entries pool := by
  obtain ⟨part, hpart⟩ := List.exists_mem_of_ne_nil dealt hne
  exact ⟨fun part hpart entry hentry => hall part hpart ▸ hentry,
    fun _ entry hentry => ⟨part, hpart, (hall part hpart).symm ▸ hentry⟩⟩

/-- Whatever has made a module, workers have made it. -/
theorem Compiled.exists_pool {e : Emission} {ready : List ReadyEntry} {m : Module}
    (hcompiled : Compiled a requested config e ready m) : ∃ dealt schedule pool,
      (WorkerPool.start a dealt).follow a schedule = pool ∧ pool.isOver = true ∧
      Deals dealt (firstAppearances requested) pool ∧ pool.failure? = none ∧ pool.world.shared = e ∧
      (firstAppearances requested).mapM (ReadyEntry.ofEntry a pool.function?) = .ok ready ∧
      m = e.module config ready := by
  cases hcompiled with
  | alone hrun hready =>
    obtain ⟨schedule, pool, hfollow, hover, hfailure, hshared, hfunctions⟩ := exists_pool_of_run hrun
    rw [← hfunctions] at hready
    exact ⟨_, schedule, pool, hfollow, hover, deals_of_all pool (by simp) (by simp), hfailure, hshared,
      hready, rfl⟩
  | pool hrun hover hdeals hsucceeded hready =>
    exact ⟨_, _, _, hrun, hover, hdeals, hsucceeded, rfl, hready, rfl⟩

/-- What `compile` returns, workers return as well: one worker alone, for instance. -/
theorem exists_compileOn_of_compile {result : Except Error Module}
    (h : compile a requested config = .returned result) : ∃ schedule,
      compileOn a requested config (fun entries => [entries]) schedule = some result := by
  unfold compile compileFrom at h
  unfold compileOn
  dsimp only at h ⊢
  cases hmodels : checkModels (firstAppearances requested) with
  | error fault =>
    rw [hmodels] at h
    exact ⟨[], congrArg some (Outcome.returned.inj h)⟩
  | ok _ =>
    rw [hmodels] at h
    rcases hrun : Session.start.run a (Construct.entryPoints a (firstAppearances requested))
      with ⟨_ | _ | _, s⟩ <;> rw [hrun] at h
    case returned ending =>
      -- One worker that takes all steps itself follows the run.
      obtain ⟨schedule, pool, hfollow, hover, hfailure, hshared, hfunctions⟩ :=
        exists_pool_of_run hrun
      refine ⟨schedule, ?_⟩
      simp only [hfollow, hover, if_true, WorkerPool.result, hfailure]
      cases ending with
      | error e => exact congrArg some (Outcome.returned.inj h)
      | ok _ =>
        rw [hshared, hfunctions]
        exact congrArg some (Outcome.returned.inj h)
    all_goals cases h

theorem Compiled.materialized {e : Emission} {ready : List ReadyEntry} {m : Module}
    (hcompiled : Compiled a requested config e ready m) (hissued : e.ids.issued < UInt32.size) :
    (∃ h, Materialized a (firstAppearances requested) e ready h) ∧ m = e.module config ready := by
  obtain ⟨dealt, schedule, pool, hrun, hover, hdeals, hsucceeded, rfl, hready, rfl⟩ :=
    hcompiled.exists_pool
  exact ⟨WorkerPool.materialized hrun hover hdeals hissued hsucceeded hready, rfl⟩

end Alone

end ShaderLowering
