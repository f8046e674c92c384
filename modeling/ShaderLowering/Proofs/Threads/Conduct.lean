import ShaderLowering.Proofs.Sessions.Regime
import ShaderLowering.Proofs.Threads.Confined
import ShaderLowering.Proofs.Threads.Governed

/-!
# What constructions ask for

`Task.Obeys` is about a task alone: it says which keys the task asks for, provided that `had` holds of the
keys that it has been given.  If every factory obeys, and makes its entity only if `had` holds of its key,
then the same can be said of any number of threads under any schedule: `had` holds of every key that is
ready (`had_of_ready`), and what the construction of a key is about to ask for is what it may ask for
(`asks_of_errand`), because everything that it has been given so far was ready.
-/

namespace ShaderLowering.Construction

variable {I : Interface} {σ α : Type} {had : I.Key → Prop} {asks : I.Key → I.Key → Prop}
  {recipes : Recipes I σ}

/-! ## Errands -/

/-- The key whose construction is about to ask for something, and what it is about to ask for. -/
def Thread.errand? (thread : Thread I α) : Option (I.Key × I.Key) :=
  match thread with
  | ⟨.construct k, .run (.request r _), _⟩ => some (k, I.key r)
  | _ => none

/-- What a thread is about to ask for on account of a construction. -/
def Machine.errand? (m : Machine I σ α) (t : ThreadId) : Option (I.Key × I.Key) :=
  m.threads[t]?.bind Thread.errand?

theorem Thread.errand?_eq_some {thread : Thread I α} {k k' : I.Key}
    (h : thread.errand? = some (k, k')) : ∃ r next frames,
      thread = ⟨.construct k, .run (.request r next), frames⟩ ∧ I.key r = k' := by
  unfold Thread.errand? at h
  split at h
  · next key r next frames =>
    obtain ⟨rfl, rfl⟩ := Prod.mk.inj (Option.some.inj h)
    exact ⟨r, next, frames, rfl, rfl⟩
  · cases h

/-! ## The discipline -/

/-- What threads keep to whose constructions obey: nothing is noted and nothing is asked of the shared
state. -/
def conduct (recipes : Recipes I σ) (asks : I.Key → I.Key → Prop) (had : I.Key → Prop) :
    Discipline I σ Empty where
  recipes := recipes
  inv _ _ := True
  within _ := True
  known _ _ := True
  needs := asks
  holds _ k _ := had k
  fails _ := True

/-- The construction of a key that obeys is safe. -/
theorem Task.Obeys.safe {k : I.Key} {bad : Prop} {t : Task I α} {R : α → Prop}
    (ht : t.Obeys (asks k) had bad R) (h : List (I.Key × Empty)) :
    (conduct recipes asks had).Safe (.construct k) h t fun _ result => ∀ v, result = .ok v → R v := by
  induction t generalizing h with
  | done result =>
    rintro h' s - v rfl
    exact ht
  | panic => exact ht.elim
  | act action next ih => exact fun _ _ _ _ => ⟨[], nofun, trivial, ih _ (ht _) _⟩
  | peek k next => exact ht.elim
  | request r next ih =>
    intro h' s _ _
    refine ⟨trivial, ht.1, fun result hanswer => ?_⟩
    cases result with
    | ok v => exact ih _ (ht.2.1 v hanswer) h'
    | error e =>
      rw [ht.2.2 e]
      exact fun _ _ _ => nofun

theorem conduct_lawful (hfactory : ∀ r, (recipes.factory r).Obeys (asks (I.key r)) had True fun _ =>
    had (I.key r)) : (conduct recipes asks had).Lawful where
  within_of_act _ _ _ := trivial
  known_append _ _ _ _ := trivial
  holds_append _ _ _ _ _ hv := hv
  abandoned_append _ _ _ _ _ := trivial
  fails_of_cycle _ _ := trivial
  factory r h _ _ := by
    refine ((hfactory r).safe h).mono fun _ result hresult => ?_
    cases result with
    | ok v => exact hresult v rfl
    | error e => exact ⟨trivial, trivial⟩

/-! ## Runs -/

/-- Threads that look into no slots and do not panic of their own accord keep to it. -/
theorem governed_conduct (hfactory : ∀ r, (recipes.factory r).Obeys (asks (I.key r)) had True fun _ =>
      had (I.key r)) {acts : I.Action → Prop} {askable : I.Request → Prop}
    {tasks : List (Task I α)} (htasks : ∀ task ∈ tasks, task.Confined acts askable) (shared : σ)
    (schedule : List ThreadId) :
    ∃ h, (conduct recipes asks had).Governed (fun _ _ _ => True)
      ((Machine.start tasks shared).follow recipes schedule) h := by
  have hstart : (conduct recipes asks had).Governed (fun _ _ _ => True) (Machine.start tasks shared) [] :=
    .start trivial fun _ task htask =>
      (htasks task (List.mem_of_getElem? htask)).safe (fun _ _ _ _ _ => trivial)
        (fun _ _ _ _ => ⟨trivial, trivial⟩) fun _ _ _ => trivial
  obtain ⟨h, hend⟩ := hstart.follow (conduct_lawful hfactory) schedule trivial
  exact ⟨_, hend⟩

variable {m : Machine I σ α} {P : ThreadId → List (I.Key × Empty) → Result I α → Prop}
  {h : List (I.Key × Empty)}

theorem had_of_ready (hm : (conduct recipes asks had).Governed P m h) {k : I.Key} {v : I.Value k}
    (hready : m.world.ready? k = some v) : had k :=
  hm.ready k v (World.ready?_eq_some.mp hready)

/-- What a construction is about to ask for it may ask for. -/
theorem asks_of_errand (hm : (conduct recipes asks had).Governed P m h) {t : ThreadId} {k k' : I.Key}
    (herrand : m.errand? t = some (k, k')) : asks k k' := by
  obtain ⟨thread, hthread, hrequest⟩ := Option.bind_eq_some_iff.mp herrand
  obtain ⟨r, next, frames, rfl, rfl⟩ := Thread.errand?_eq_some hrequest
  exact ((hm.threads t _ hthread).control h m.world.shared (hm.later trivial _) nofun).2.1

end ShaderLowering.Construction
