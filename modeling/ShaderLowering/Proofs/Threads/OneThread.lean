import ShaderLowering.Proofs.Threads.Agreement

/-!
# One thread after another, or one thread alone

Resolving requests one after another is what a machine with a single thread does: whatever
`Task.execute` answers, the machine that runs the same task comes to the same answer and to a world
that mirrors the state (`Task.execute_follow`).  So a law about all schedules of all machines is a law
about runs on one thread as well.
-/

namespace ShaderLowering.Construction

variable {I : Interface} {σ α : Type}

/-- The slot that a state is seen as when there is one thread only. -/
def Cell.mirror {β : Type} (state : SlotState β) : Cell β :=
  ⟨0, match state with | .building => false | .ready _ | .failed => true, state, []⟩

/-- A world shows what a state says; nobody waits in it. -/
structure Mirrors (s : State I σ) (w : World I σ) : Prop where
  cells : ∀ k, w.cells.get? k = (s.slots.get? k).map Cell.mirror
  waiting : w.waiting = []
  lock : w.lock = none
  shared : w.shared = s.shared

/-- A machine with one thread comes from one thread and world to another. -/
def Leads (recipes : Recipes I σ) (thread : Thread I α) (w : World I σ) (thread' : Thread I α)
    (w' : World I σ) : Prop :=
  ∃ n, (⟨[thread], w⟩ : Machine I σ α).follow recipes (List.replicate n 0) = ⟨[thread'], w'⟩

/-- Some steps of a single thread lead from one thread and world to another, with these events. -/
def Runs (recipes : Recipes I σ) (thread : Thread I α) (w : World I σ) (events : List (Event I))
    (thread' : Thread I α) (w' : World I σ) : Prop :=
  ∃ n, (⟨[thread], w⟩ : Machine I σ α).follow recipes (List.replicate n 0) = ⟨[thread'], w'⟩ ∧
    (⟨[thread], w⟩ : Machine I σ α).log recipes (List.replicate n 0) = events

section Steps

variable {recipes : Recipes I σ} {thread thread' thread'' : Thread I α} {w w' w'' : World I σ}
  {events : List (Event I)}

theorem Machine.step_single (hstep : thread.step recipes 0 w = some (thread', w')) :
    (⟨[thread], w⟩ : Machine I σ α).step recipes 0 = some ⟨[thread'], w'⟩ := by
  simp [Machine.step, hstep]

namespace Leads

theorem refl (thread : Thread I α) (w : World I σ) : Leads recipes thread w thread w :=
  ⟨0, rfl⟩

theorem step (hstep : thread.step recipes 0 w = some (thread', w'))
    (hrest : Leads recipes thread' w' thread'' w'') : Leads recipes thread w thread'' w'' := by
  obtain ⟨n, hn⟩ := hrest
  refine ⟨n + 1, ?_⟩
  rw [List.replicate_succ, Machine.follow, Machine.step_single hstep]
  exact hn

theorem trans (hfirst : Leads recipes thread w thread' w')
    (hrest : Leads recipes thread' w' thread'' w'') : Leads recipes thread w thread'' w'' := by
  obtain ⟨n, hn⟩ := hfirst
  induction n generalizing thread w with
  | zero =>
    obtain ⟨hthread, rfl⟩ := Machine.mk.inj hn
    obtain rfl := List.singleton_inj.mp hthread
    exact hrest
  | succ n ih =>
    rw [List.replicate_succ, Machine.follow] at hn
    cases hstep : thread.step recipes 0 w with
    | none =>
      have hmachine : (⟨[thread], w⟩ : Machine I σ α).step recipes 0 = none := by
        simp [Machine.step, hstep]
      rw [hmachine] at hn
      exact ih hn
    | some next =>
      rw [Machine.step_single hstep] at hn
      exact .step hstep (ih hn)

end Leads

namespace Runs

theorem refl (thread : Thread I α) (w : World I σ) : Runs recipes thread w [] thread w :=
  ⟨0, rfl, rfl⟩

theorem step (hstep : thread.step recipes 0 w = some (thread', w')) {e : Option (Event I)}
    (hevent : thread.control.event? 0 w = e) (hrest : Runs recipes thread' w' events thread'' w'') :
    Runs recipes thread w (e.toList ++ events) thread'' w'' := by
  obtain ⟨n, hfollow, hlog⟩ := hrest
  have hmachine := Machine.step_single hstep
  refine ⟨n + 1, ?_, ?_⟩
  · rw [List.replicate_succ, Machine.follow, hmachine]
    exact hfollow
  · rw [List.replicate_succ, Machine.log, hmachine, ← hevent, ← hlog]
    rfl

theorem leads (h : Runs recipes thread w events thread' w') : Leads recipes thread w thread' w' :=
  h.imp fun _ h => h.1

end Runs

end Steps

namespace Mirrors

variable {s : State I σ} {w : World I σ} {k : I.Key}

theorem ready? (h : Mirrors s w) (k : I.Key) : w.ready? k = s.ready? k := by
  rw [World.ready?, h.cells, State.ready?]
  cases s.slots.get? k <;> rfl

theorem state? (h : Mirrors s w) (k : I.Key) : w.state? k = s.slots.get? k := by
  rw [World.state?, h.cells, Option.map_map]
  exact Option.map_id'

theorem install (h : Mirrors s w) (k : I.Key) : Mirrors (s.settle k .building) (w.install 0 k) := by
  refine ⟨fun k' => ?_, h.waiting, h.lock, h.shared⟩
  by_cases hk : k' = k
  · subst hk
    simp [World.install, State.settle, Cell.mirror]
  · simp only [World.install, State.settle, Table.get?_set_of_ne hk, h.cells]

theorem conclude (h : Mirrors s w) (hk : (s.slots.get? k).isSome) (ending : Option (Result I (I.Value k))) :
    Mirrors (s.settle k (Thread.endingState ending))
      ((w.finish k).settle k (Thread.endingState ending)) := by
  obtain ⟨state, hstate⟩ := Option.isSome_iff_exists.mp hk
  refine ⟨fun k' => ?_, ?_, ?_, ?_⟩
  · by_cases hkk : k' = k
    · subst hkk
      have hcell := h.cells k'
      rw [hstate] at hcell
      rcases ending with _ | _ | _ <;> simp [World.finish, World.settle, World.get?_modifyCell_self,
        hcell, State.settle, Cell.mirror, Thread.endingState, SlotState.ofResult]
    · simp only [World.finish, World.settle, World.get?_modifyCell_of_ne hkk, State.settle,
        Table.get?_set_of_ne hkk, h.cells]
  · simp [World.finish, World.settle, h.waiting]
  · simp [World.finish, World.settle, h.lock]
  · simp [World.finish, World.settle, State.settle, h.shared]

end Mirrors

/-! ## Answers -/

/-- What a single thread is answered when it requests a key that has a slot. -/
def SlotState.reply (k : I.Key) : SlotState (I.Value k) → Result I (I.Value k)
  | .building => .error (.cyclic k)
  | .ready v => .ok v
  | .failed => .error (.poisoned k)

section Answers

variable {recipes : Recipes I σ} {goal : Goal I.Key} {frames : Frames I α goal} {s : State I σ}
  {w : World I σ}

/-- A wait for a settled slot is over at once. -/
theorem Runs.answered {k : I.Key} {next : Result I (I.Value k) → Task I (goal.Value I α)}
    {result : Result I (I.Value k)} (hanswer : Thread.answer? w k = some result) :
    Runs recipes (⟨goal, .wait k .inspect next, frames⟩ : Thread I α) w [.answers 0 k result]
      ⟨goal, .run (next result), frames⟩ w := by
  refine .step (e := some (.answers 0 k result)) ?_ ?_ (.refl _ _)
  · simp [Thread.step, Thread.stepWait, hanswer]
  · rw [Control.event?, hanswer]
    rfl

/-- A wait for a slot of the thread itself is refused. -/
theorem Runs.refused {k : I.Key} {next : Result I (I.Value k) → Task I (goal.Value I α)}
    (hopen : w.state? k = some .building) (hflag : w.isFinished k = false)
    (howner : w.owner? k = some 0) (hlock : w.lock = none) :
    Runs recipes (⟨goal, .wait k .inspect next, frames⟩ : Thread I α) w
      [.answers 0 k (.error (.cyclic k))] ⟨goal, .run (next (.error (.cyclic k))), frames⟩ w := by
  -- The thread looks, enlists, checks and finds itself as the owner: four steps, one event.
  have hanswer : Thread.answer? w k = none := by
    rw [Thread.answer?_eq, hopen]
    rfl
  have hunlocked : (w.setLock (some 0)).setLock none = w := by
    rw [World.setLock, World.setLock, ← hlock]
  have hinspect : Thread.step recipes 0 w (⟨goal, .wait k .inspect next, frames⟩ : Thread I α) =
      some (⟨goal, .wait k .enlist next, frames⟩, w) := by
    simp [Thread.step, Thread.stepWait, hanswer]
  have henlist : Thread.step recipes 0 w (⟨goal, .wait k .enlist next, frames⟩ : Thread I α) =
      some (⟨goal, .wait k .check next, frames⟩, w.setLock (some 0)) := by
    simp [Thread.step, Thread.stepWait, hlock]
  have hcheck : Thread.step recipes 0 (w.setLock (some 0))
      (⟨goal, .wait k .check next, frames⟩ : Thread I α) =
      some (⟨goal, .wait k (.chase 0) next, frames⟩, w.setLock (some 0)) := by
    have hflag : (w.setLock (some 0)).isFinished k = false := hflag
    have howner : (w.setLock (some 0)).owner? k = some 0 := howner
    simp [Thread.step, Thread.stepWait, hflag, howner]
  have hchase : Thread.step recipes 0 (w.setLock (some 0))
      (⟨goal, .wait k (.chase 0) next, frames⟩ : Thread I α) =
      some (⟨goal, .run (next (.error (.cyclic k))), frames⟩, w) := by
    simp [Thread.step, Thread.stepWait, hunlocked]
  have hlast := Runs.step hchase (e := some (.answers 0 k (.error (.cyclic k))))
    (by simp [Control.event?]) (.refl _ _)
  refine .step hinspect (e := none) ?_ (.step henlist rfl (.step hcheck rfl hlast))
  rw [Control.event?, hanswer]
  rfl

/-- A request for a key that has a slot is answered by the slot, and nothing else happens. -/
theorem Runs.of_slot {r : I.Request} {next : Result I (I.Value (I.key r)) → Task I (goal.Value I α)}
    {state : SlotState (I.Value (I.key r))} (hslot : w.state? (I.key r) = some state)
    (hown : state = .building →
      w.isFinished (I.key r) = false ∧ w.owner? (I.key r) = some 0 ∧ w.lock = none) :
    Runs recipes (⟨goal, .run (.request r next), frames⟩ : Thread I α) w
      [.answers 0 (I.key r) (state.reply (I.key r))]
      ⟨goal, .run (next (state.reply (I.key r))), frames⟩ w := by
  obtain ⟨cell, hcell, -⟩ := Option.map_eq_some_iff.mp hslot
  have harrive : Thread.step recipes 0 w (⟨goal, .run (.request r next), frames⟩ : Thread I α) =
      some (⟨goal, .wait (I.key r) .inspect next, frames⟩, w) := by
    simp [Thread.step, Thread.stepTask, hcell]
  refine .step harrive (by simp [Control.event?, hcell]) (e := none) ?_
  have hanswer : Thread.answer? w (I.key r) = state.answer? (I.key r) := by
    rw [Thread.answer?_eq, hslot, Option.bind_some]
  cases state with
  | building =>
    obtain ⟨hflag, howner, hlock⟩ := hown rfl
    exact .refused hslot hflag howner hlock
  | ready v => exact .answered hanswer
  | failed => exact .answered hanswer

/-- The same, in a world that shows what a state says. -/
theorem Leads.of_slot (h : Mirrors s w) {r : I.Request}
    {next : Result I (I.Value (I.key r)) → Task I (goal.Value I α)}
    {state : SlotState (I.Value (I.key r))} (hslot : s.slots.get? (I.key r) = some state) :
    Leads recipes (⟨goal, .run (.request r next), frames⟩ : Thread I α) w
      ⟨goal, .run (next (state.reply (I.key r))), frames⟩ w := by
  have hcell : w.cells.get? (I.key r) = some (.mirror state) := by
    rw [h.cells, hslot]
    rfl
  refine (Runs.of_slot ?_ fun hopen => ⟨?_, ?_, h.lock⟩).leads
  · rw [World.state?, hcell]
    rfl
  · rw [World.isFinished, hcell, hopen]
    rfl
  · rw [World.owner?, hcell]
    rfl

end Answers

/-! ## Runs -/

/-- What one state has slots for, another has too. -/
def State.Keeps (s s' : State I σ) : Prop :=
  ∀ k, (s.slots.get? k).isSome → (s'.slots.get? k).isSome

theorem State.keeps_settle (s : State I σ) (k : I.Key) (state : SlotState (I.Value k)) :
    s.Keeps (s.settle k state) := by
  intro k' hk'
  by_cases hk : k' = k
  · subst hk
    simp [State.settle]
  · rwa [State.settle, Table.get?_set_of_ne hk]

section Runs

variable {recipes : Recipes I σ}

/-- How a computation that was followed to its end has come to it: with a value, or by a panic. -/
def Outcome.ending? {κ β : Type} : Outcome κ β → Option (Option β)
  | .returned value => some (some value)
  | .panicked _ => some none
  | .exhausted => none

/-- What is to be shown of a way to answer requests: a machine with one thread finds the same answer, or
panics as well. -/
def Answered (recipes : Recipes I σ) (α : Type) (answer : Answerer I σ) : Prop :=
  ∀ {goal : Goal I.Key} (frames : Frames I α goal) (r : I.Request)
    (next : Result I (I.Value (I.key r)) → Task I (goal.Value I α)) (s s' : State I σ)
    (w : World I σ) (outcome : Outcome I.Key (Result I (I.Value (I.key r))))
    (ending : Option (Result I (I.Value (I.key r)))), Mirrors s w →
    answer r s = (outcome, s') → outcome.ending? = some ending →
    ∃ w', Leads recipes ⟨goal, .run (.request r next), frames⟩ w
      ⟨goal, .run (ending.elim .panic next), frames⟩ w' ∧ Mirrors s' w' ∧ s.Keeps s'

/-- A task that comes to its end is run to the same end by a machine with one thread. -/
theorem Task.run_leads {answer : Answerer I σ} (hanswer : Answered recipes α answer)
    {goal : Goal I.Key} (frames : Frames I α goal) (task : Task I (goal.Value I α)) {s s' : State I σ}
    {w : World I σ} {outcome : Outcome I.Key (Result I (goal.Value I α))}
    {ending : Option (Result I (goal.Value I α))} (h : Mirrors s w)
    (hrun : task.run recipes answer s = (outcome, s')) (hending : outcome.ending? = some ending) :
    ∃ w', Leads recipes ⟨goal, .run task, frames⟩ w
      ⟨goal, .run (ending.elim .panic .done), frames⟩ w' ∧ Mirrors s' w' ∧ s.Keeps s' := by
  induction task generalizing s w with
  | done r =>
    obtain ⟨rfl, rfl⟩ := Prod.mk.inj hrun
    obtain rfl := Option.some.inj hending
    exact ⟨w, .refl _ _, h, fun _ hk => hk⟩
  | panic =>
    obtain ⟨rfl, rfl⟩ := Prod.mk.inj hrun
    obtain rfl := Option.some.inj hending
    exact ⟨w, .refl _ _, h, fun _ hk => hk⟩
  | act action next ih =>
    have hshared := h.shared
    have hnext : Mirrors { s with shared := (recipes.act action s.shared).2 }
        { w with shared := (recipes.act action w.shared).2 } :=
      ⟨h.cells, h.waiting, h.lock, by rw [hshared]⟩
    obtain ⟨w', hleads, hmirrors, hkeeps⟩ := ih _ hnext hrun
    refine ⟨w', .step ?_ hleads, hmirrors, hkeeps⟩
    simp [Thread.step, Thread.stepTask, hshared]
  | peek k next ih =>
    obtain ⟨w', hleads, hmirrors, hkeeps⟩ := ih _ h hrun
    refine ⟨w', .step ?_ hleads, hmirrors, hkeeps⟩
    simp [Thread.step, Thread.stepTask, h.ready?]
  | request r next ih =>
    rw [Task.run] at hrun
    rcases hfirst : answer r s with ⟨r₁ | unwound | _, s₁⟩
    · rw [hfirst] at hrun
      obtain ⟨w₁, hleads₁, hmirrors₁, hkeeps₁⟩ := hanswer frames r next s s₁ w _ (some r₁) h hfirst rfl
      obtain ⟨w', hleads, hmirrors, hkeeps⟩ := ih _ hmirrors₁ hrun
      exact ⟨w', hleads₁.trans hleads, hmirrors, fun k hk => hkeeps k (hkeeps₁ k hk)⟩
    · rw [hfirst] at hrun
      obtain ⟨rfl, rfl⟩ := Prod.mk.inj hrun
      obtain rfl := Option.some.inj hending
      exact hanswer frames r next s s₁ w _ none h hfirst rfl
    · rw [hfirst] at hrun
      obtain ⟨rfl, -⟩ := Prod.mk.inj hrun
      cases hending

/-- The slot of a factory that has come to its end is left in the state that it ended with. -/
theorem eq_of_conclude {k : I.Key} {outcome outcome' : Outcome I.Key (Result I (I.Value k))}
    {s s' : State I σ} {ending : Option (Result I (I.Value k))}
    (hconclude : conclude k (outcome, s) = (outcome', s')) (hending : outcome'.ending? = some ending) :
    outcome.ending? = some ending ∧ s' = s.settle k (Thread.endingState ending) := by
  cases outcome with
  | returned result | panicked unwound =>
    obtain ⟨rfl, rfl⟩ := Prod.mk.inj hconclude
    obtain rfl := Option.some.inj hending
    exact ⟨rfl, rfl⟩
  | exhausted =>
    obtain ⟨rfl, -⟩ := Prod.mk.inj hconclude
    cases hending

/-- Resolving requests one after another is one way that a machine with one thread answers them. -/
theorem resolve_answered (recipes : Recipes I σ) (α : Type) (depth : Nat) :
    Answered recipes α (resolve recipes depth) := by
  induction depth with
  | zero =>
    intro goal frames r next s s' w outcome ending _ hresolve hending
    obtain ⟨rfl, -⟩ := Prod.mk.inj hresolve
    cases hending
  | succ depth ih =>
    intro goal frames r next s s' w outcome ending h hresolve hending
    have hcell := h.cells (I.key r)
    unfold resolve at hresolve
    dsimp only at hresolve
    cases hslot : s.slots.get? (I.key r) with
    | some state =>
      have hleads : Leads recipes ⟨goal, .run (.request r next), frames⟩ w
          ⟨goal, .run (next (state.reply (I.key r))), frames⟩ w := .of_slot h hslot
      rw [hslot] at hresolve
      cases state <;>
      · obtain ⟨rfl, rfl⟩ := Prod.mk.inj hresolve
        obtain rfl := Option.some.inj hending
        exact ⟨w, hleads, h, fun _ hk => hk⟩
    -- The request becomes a construction of its own: install, run, finish and publish, in this order.
    | none =>
      rw [hslot] at hresolve hcell
      have hinstall : Thread.step recipes 0 w (⟨goal, .run (.request r next), frames⟩ : Thread I α) =
          some (⟨.construct (I.key r), .run (recipes.factory r), .enclosed (I.key r) next frames⟩,
            w.install 0 (I.key r)) := by
        simp [Thread.step, Thread.stepTask, hcell]
      rcases hfactory : (recipes.factory r).run recipes (resolve recipes depth)
        (s.settle (I.key r) .building) with ⟨outcome₁, s₁⟩
      rw [hfactory] at hresolve
      obtain ⟨hending₁, rfl⟩ := eq_of_conclude hresolve hending
      -- The factory's run is the induction's: its requests have one unit of depth less.
      obtain ⟨w₁, hleads, hmirrors, hkeeps⟩ := Task.run_leads ih (.enclosed (I.key r) next frames)
        (recipes.factory r) (h.install _) hfactory hending₁
      have hslot₁ : (s₁.slots.get? (I.key r)).isSome := hkeeps _ (by simp [State.settle])
      have hfinish : Thread.step recipes 0 w₁ (⟨.construct (I.key r), .run (ending.elim .panic .done),
          .enclosed (I.key r) next frames⟩ : Thread I α) = some (⟨.construct (I.key r),
            .publish ending, .enclosed (I.key r) next frames⟩, w₁.finish (I.key r)) := by
        cases ending <;> rfl
      have hpublish : Thread.step recipes 0 (w₁.finish (I.key r)) (⟨.construct (I.key r),
          .publish ending, .enclosed (I.key r) next frames⟩ : Thread I α) =
          some (⟨goal, .run (ending.elim .panic next), frames⟩,
            (w₁.finish (I.key r)).settle (I.key r) (Thread.endingState ending)) := by
        cases ending <;> rfl
      refine ⟨_, .step hinstall (hleads.trans (.step hfinish (.step hpublish (.refl _ _)))),
        hmirrors.conclude hslot₁ ending, fun k hk => ?_⟩
      exact s₁.keeps_settle _ _ k (hkeeps k (s.keeps_settle _ _ k hk))

/-- A task that comes to its end on one thread leads a machine with one thread to the same end. -/
theorem Task.execute_ends {task : Task I α} {depth : Nat} {s s' : State I σ} {w : World I σ}
    {outcome : Outcome I.Key (Result I α)} {ending : Option (Result I α)} (h : Mirrors s w)
    (hrun : task.execute recipes depth s = (outcome, s')) (hending : outcome.ending? = some ending) :
    ∃ w', Leads recipes (.start task) w (.ended ending) w' ∧ Mirrors s' w' := by
  obtain ⟨w', hleads, hmirrors, -⟩ := Task.run_leads (resolve_answered recipes α depth)
    (.base : Frames I α .top) task h hrun hending
  cases ending <;> exact ⟨w', hleads, hmirrors⟩

/-- A task that returns on one thread leads a machine with one thread to the same end. -/
theorem Task.execute_leads {task : Task I α} {depth : Nat} {shared : σ} {result : Result I α}
    {s : State I σ} (hrun : task.execute recipes depth (.start shared) = (.returned result, s)) :
    ∃ w, Leads recipes (.start task) (.start shared) (.ended (some result)) w ∧ Mirrors s w :=
  Task.execute_ends ⟨fun _ => rfl, rfl, rfl, rfl⟩ hrun rfl

/-- What a task returns on one thread, it returns on a machine with one thread. -/
theorem Task.execute_follow {task : Task I α} {depth : Nat} {shared : σ} {result : Result I α}
    {s : State I σ} (hrun : task.execute recipes depth (.start shared) = (.returned result, s)) :
    ∃ schedule w, (Machine.start [task] shared).follow recipes schedule =
      ⟨[.ended (some result)], w⟩ ∧ Mirrors s w := by
  obtain ⟨w, ⟨n, hn⟩, hmirrors⟩ := Task.execute_leads hrun
  exact ⟨List.replicate n 0, w, hn, hmirrors⟩

end Runs

end ShaderLowering.Construction
