import ShaderLowering.Construction.Threads

/-!
# The steps of a thread

What a thread can do, as a relation: one rule for each way on, with the look at the world that decides for
it (`Thread.StepsTo`), and likewise for a thread that waits (`Thread.WaitsTo`).  Every step of a machine
is one of them (`Machine.stepsTo_of_step`), so that what is said of steps is proved rule by rule.
-/

namespace ShaderLowering.Construction

variable {I : Interface} {σ α : Type}

namespace Thread

/-- What a thread does that waits for a slot. -/
inductive WaitsTo (t : ThreadId) (w : World I σ) {goal : Goal I.Key} (k : I.Key)
    (next : Result I (I.Value k) → Task I (goal.Value I α)) :
    Phase → Control I α goal → World I σ → Prop
  | answer {result : Result I (I.Value k)} (hanswer : answer? w k = some result) :
      WaitsTo t w k next .inspect (.run (next result)) w
  | queue (hopen : answer? w k = none) : WaitsTo t w k next .inspect (.wait k .enlist next) w
  | enter (hlock : w.lock = none) :
      WaitsTo t w k next .enlist (.wait k .check next) (w.setLock (some t))
  | skip (hdone : w.isFinished k = true) :
      WaitsTo t w k next .check (.wait k .await next) (w.setLock none)
  | chase {owner : ThreadId} (hopen : w.isFinished k = false) (howner : w.owner? k = some owner) :
      WaitsTo t w k next .check (.wait k (.chase owner) next) w
  | refuse :
      WaitsTo t w k next (.chase t) (.run (next (.error (.cyclic k)))) (w.setLock none)
  /-- The chain ends at an owner that waits for nothing, or for what is over. -/
  | commit {owner : ThreadId} (hother : owner ≠ t)
      (hend : ∀ link, w.waiting.lookup owner = some link → w.isFinished link = true) :
      WaitsTo t w k next (.chase owner) (.wait k .await next) ((w.record t k).setLock none)
  | follow {owner owner' : ThreadId} {link : I.Key} (hother : owner ≠ t)
      (hlink : w.waiting.lookup owner = some link) (hopen : w.isFinished link = false)
      (howner : w.owner? link = some owner') :
      WaitsTo t w k next (.chase owner) (.wait k (.chase owner') next) w
  | wake {result : Result I (I.Value k)} (hanswer : answer? w k = some result) :
      WaitsTo t w k next .await (.leave k result next) w
  | doze (hopen : answer? w k = none) :
      WaitsTo t w k next .await (.wait k .asleep next) (w.sleep t k)
  | stir {cell : Cell (I.Value k)} (hcell : w.cells.get? k = some cell) (hwoken : t ∉ cell.sleepers) :
      WaitsTo t w k next .asleep (.wait k .await next) w

/-- A waiting thread leaves the slots alone, except that it goes to sleep on one that does not answer. -/
theorem WaitsTo.cells {t : ThreadId} {w w' : World I σ} {goal : Goal I.Key} {k : I.Key} {phase : Phase}
    {next : Result I (I.Value k) → Task I (goal.Value I α)} {control : Control I α goal}
    (hwait : WaitsTo t w k next phase control w') :
    w'.cells = w.cells ∨ answer? w k = none ∧ w' = w.sleep t k := by
  cases hwait with
  | doze hopen => exact .inr ⟨hopen, rfl⟩
  | _ => exact .inl rfl

/-- What a thread does. -/
inductive StepsTo (recipes : Recipes I σ) (t : ThreadId) (w : World I σ) :
    Thread I α → Thread I α → World I σ → Prop
  | act {goal : Goal I.Key} {frames : Frames I α goal} {action : I.Action}
      {next : I.Answer action → Task I (goal.Value I α)} :
      StepsTo recipes t w ⟨goal, .run (.act action next), frames⟩
        ⟨goal, .run (next (recipes.act action w.shared).1), frames⟩
        { w with shared := (recipes.act action w.shared).2 }
  | peek {goal : Goal I.Key} {frames : Frames I α goal} {k : I.Key}
      {next : Option (I.Value k) → Task I (goal.Value I α)} :
      StepsTo recipes t w ⟨goal, .run (.peek k next), frames⟩
        ⟨goal, .run (next (w.ready? k)), frames⟩ w
  | arrive {goal : Goal I.Key} {frames : Frames I α goal} {r : I.Request}
      {next : Result I (I.Value (I.key r)) → Task I (goal.Value I α)}
      (htaken : (w.cells.get? (I.key r)).isSome) :
      StepsTo recipes t w ⟨goal, .run (.request r next), frames⟩
        ⟨goal, .wait (I.key r) .inspect next, frames⟩ w
  | begins {goal : Goal I.Key} {frames : Frames I α goal} {r : I.Request}
      {next : Result I (I.Value (I.key r)) → Task I (goal.Value I α)}
      (hfree : w.cells.get? (I.key r) = none) :
      StepsTo recipes t w ⟨goal, .run (.request r next), frames⟩
        ⟨.construct (I.key r), .run (recipes.factory r), .enclosed (I.key r) next frames⟩
        (w.install t (I.key r))
  | finish {goal : Goal I.Key} {k : I.Key} {task : Task I (I.Value k)}
      {next : Result I (I.Value k) → Task I (goal.Value I α)} {rest : Frames I α goal}
      {ending : Option (Result I (I.Value k))} (htask : task = ending.elim .panic .done) :
      StepsTo recipes t w ⟨.construct k, .run task, .enclosed k next rest⟩
        ⟨.construct k, .publish ending, .enclosed k next rest⟩ (w.finish k)
  | wait {goal : Goal I.Key} {frames : Frames I α goal} {k : I.Key} {phase : Phase}
      {next : Result I (I.Value k) → Task I (goal.Value I α)} {control : Control I α goal}
      {w' : World I σ} (hwait : WaitsTo t w k next phase control w') :
      StepsTo recipes t w ⟨goal, .wait k phase next, frames⟩ ⟨goal, control, frames⟩ w'
  | leave {goal : Goal I.Key} {frames : Frames I α goal} {k : I.Key} {result : Result I (I.Value k)}
      {next : Result I (I.Value k) → Task I (goal.Value I α)} (hlock : w.lock = none) :
      StepsTo recipes t w ⟨goal, .leave k result next, frames⟩ ⟨goal, .run (next result), frames⟩
        (w.forget t)
  | publish {goal : Goal I.Key} {k : I.Key} {next : Result I (I.Value k) → Task I (goal.Value I α)}
      {rest : Frames I α goal} {ending : Option (Result I (I.Value k))} :
      StepsTo recipes t w ⟨.construct k, .publish ending, .enclosed k next rest⟩
        ⟨goal, .run (ending.elim .panic next), rest⟩ (w.settle k (endingState ending))

variable {recipes : Recipes I σ} {t : ThreadId} {w w' : World I σ} {goal : Goal I.Key}
  {frames : Frames I α goal} {thread thread' : Thread I α}

theorem waitsTo_of_stepWait {k : I.Key} {phase : Phase}
    {next : Result I (I.Value k) → Task I (goal.Value I α)} {control : Control I α goal}
    (hstep : stepWait t w k next phase = some (control, w')) :
    WaitsTo t w k next phase control w' := by
  cases phase with
  | inspect =>
    simp only [stepWait] at hstep
    split at hstep <;> obtain ⟨rfl, rfl⟩ := Prod.mk.inj (Option.some.inj hstep)
    · next result hanswer => exact .answer hanswer
    · next hopen => exact .queue hopen
  | enlist =>
    simp only [stepWait] at hstep
    split at hstep
    · next hlock =>
      obtain ⟨rfl, rfl⟩ := Prod.mk.inj (Option.some.inj hstep)
      exact .enter hlock
    · cases hstep
  | check =>
    simp only [stepWait] at hstep
    split at hstep
    · next hdone =>
      obtain ⟨rfl, rfl⟩ := Prod.mk.inj (Option.some.inj hstep)
      exact .skip hdone
    · next hopen =>
      obtain ⟨owner, howner, heq⟩ := Option.map_eq_some_iff.mp hstep
      obtain ⟨rfl, rfl⟩ := Prod.mk.inj heq
      exact .chase (eq_false_of_ne_true hopen) howner
  | chase owner =>
    simp only [stepWait] at hstep
    split at hstep
    · next hself =>
      obtain ⟨rfl, rfl⟩ := Prod.mk.inj (Option.some.inj hstep)
      exact hself ▸ .refuse
    · next hother =>
      split at hstep
      · next hnone =>
        obtain ⟨rfl, rfl⟩ := Prod.mk.inj (Option.some.inj hstep)
        exact .commit hother fun link hlink => absurd (hlink.symm.trans hnone) nofun
      · next link hlink =>
        split at hstep
        · next hdone =>
          obtain ⟨rfl, rfl⟩ := Prod.mk.inj (Option.some.inj hstep)
          refine .commit hother fun link' hlink' => ?_
          obtain rfl : link = link' := Option.some.inj (hlink.symm.trans hlink')
          exact hdone
        · next hopen =>
          obtain ⟨owner', howner, heq⟩ := Option.map_eq_some_iff.mp hstep
          obtain ⟨rfl, rfl⟩ := Prod.mk.inj heq
          exact .follow hother hlink (eq_false_of_ne_true hopen) howner
  | await =>
    simp only [stepWait] at hstep
    split at hstep <;> obtain ⟨rfl, rfl⟩ := Prod.mk.inj (Option.some.inj hstep)
    · next result hanswer => exact .wake hanswer
    · next hopen => exact .doze hopen
  | asleep =>
    simp only [stepWait] at hstep
    split at hstep
    · next cell hcell =>
      split at hstep
      · cases hstep
      · next hwoken =>
        obtain ⟨rfl, rfl⟩ := Prod.mk.inj (Option.some.inj hstep)
        exact .stir hcell hwoken
    · cases hstep

theorem stepsTo_of_finish {task : Task I (goal.Value I α)} (ending : Option (Result I (goal.Value I α)))
    (htask : task = ending.elim .panic .done) (hfinish : finish w goal ending frames = some (thread', w')) :
    StepsTo recipes t w ⟨goal, .run task, frames⟩ thread' w' := by
  cases frames with
  | base => simp [finish] at hfinish
  | enclosed k next rest =>
    obtain ⟨rfl, rfl⟩ := Prod.mk.inj (Option.some.inj hfinish)
    exact .finish htask

theorem stepsTo_of_stepTask {task : Task I (goal.Value I α)}
    (hstep : stepTask recipes t w goal frames task = some (thread', w')) :
    StepsTo recipes t w ⟨goal, .run task, frames⟩ thread' w' := by
  cases task with
  | done result => exact stepsTo_of_finish (some result) rfl hstep
  | panic => exact stepsTo_of_finish none rfl hstep
  | act action next =>
    obtain ⟨rfl, rfl⟩ := Prod.mk.inj (Option.some.inj hstep)
    exact .act
  | peek k next =>
    obtain ⟨rfl, rfl⟩ := Prod.mk.inj (Option.some.inj hstep)
    exact .peek
  | request r next =>
    simp only [stepTask] at hstep
    split at hstep <;> obtain ⟨rfl, rfl⟩ := Prod.mk.inj (Option.some.inj hstep)
    · next cell hcell => exact .arrive (by rw [hcell]; rfl)
    · next hfree => exact .begins hfree

theorem stepsTo_of_publish {ending : Option (Result I (goal.Value I α))}
    (hstep : publish w goal ending frames = some (thread', w')) :
    StepsTo recipes t w ⟨goal, .publish ending, frames⟩ thread' w' := by
  cases frames with
  | base => simp [publish] at hstep
  | enclosed k next rest =>
    obtain ⟨rfl, rfl⟩ := Prod.mk.inj (Option.some.inj hstep)
    cases ending with
    | none => exact .publish
    | some result => exact .publish

/-- A thread takes no other steps than those of the rules. -/
theorem stepsTo_of_step (hstep : thread.step recipes t w = some (thread', w')) :
    StepsTo recipes t w thread thread' w' := by
  obtain ⟨goal, control, frames⟩ := thread
  cases control with
  | run task => exact stepsTo_of_stepTask hstep
  | wait k phase next =>
    obtain ⟨⟨control, w''⟩, hwait, heq⟩ := Option.map_eq_some_iff.mp hstep
    obtain ⟨rfl, rfl⟩ := Prod.mk.inj heq
    exact .wait (waitsTo_of_stepWait hwait)
  | leave k result next =>
    simp only [step] at hstep
    split at hstep
    · next hlock =>
      obtain ⟨rfl, rfl⟩ := Prod.mk.inj (Option.some.inj hstep)
      exact .leave hlock
    · cases hstep
  | publish ending => exact stepsTo_of_publish hstep

end Thread

namespace Machine

variable {m m' : Machine I σ α} {t : ThreadId}

/-- A step of a machine, taken apart. -/
theorem step_eq_some {recipes : Recipes I σ} (h : m.step recipes t = some m') :
    ∃ thread thread' w, m.threads[t]? = some thread ∧
      thread.step recipes t m.world = some (thread', w) ∧ m' = ⟨m.threads.set t thread', w⟩ := by
  unfold step at h
  cases hthread : m.threads[t]? with
  | none => simp [hthread] at h
  | some thread =>
    simp only [hthread, Option.map_eq_some_iff] at h
    obtain ⟨⟨thread', w⟩, hstep, rfl⟩ := h
    exact ⟨thread, thread', w, rfl, hstep, rfl⟩

/-- A step of a machine is a step of one of its threads. -/
theorem stepsTo_of_step {recipes : Recipes I σ} (h : m.step recipes t = some m') :
    ∃ thread thread' w, m.threads[t]? = some thread ∧
      thread.StepsTo recipes t m.world thread' w ∧ m' = ⟨m.threads.set t thread', w⟩ := by
  obtain ⟨thread, thread', w, hthread, hstep, rfl⟩ := step_eq_some h
  exact ⟨thread, thread', w, hthread, Thread.stepsTo_of_step hstep, rfl⟩

end Machine

end ShaderLowering.Construction
