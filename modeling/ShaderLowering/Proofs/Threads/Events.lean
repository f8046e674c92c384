import ShaderLowering.Proofs.Threads.Governed

/-!
# What a run shows of requests

A request is answered in one of two ways.  Where its key is free, it *begins* the construction of the
key: it invokes the factory that it offers, and when the factory is over, with a result or by a
panic, the slot is settled and the construction *ends*.  Where the key is taken, the slot *answers*
the request, or the request is refused.  These are the events of a run (`Event`, `Machine.log`).

Events are read off the thread that is about to take a step (`Control.event?`).  `Thread.Move` is what
remains of a step when the phases of a wait are forgotten, with the event that goes with it, so
`Thread.move_of_stepsTo` says that the events tell the truth: a continuation of a request is run only at
the end of its construction, with what the factory ended with, or at an answer, with that answer.
-/

namespace ShaderLowering.Construction

variable {I : Interface} {σ α : Type}

/-- What a step means for a request. -/
inductive Event (I : Interface) where
  /-- The key of a request is free; the thread invokes the factory that the request offers. -/
  | begins (thread : ThreadId) (request : I.Request)
  /-- The slot of a key is settled.  The request that invoked the factory returns what the factory
  ended with; after a panic (`none`) it does not return but panics in turn. -/
  | ends (thread : ThreadId) (key : I.Key) (ending : Option (Result I (I.Value key)))
  /-- A request that has not invoked a factory returns. -/
  | answers (thread : ThreadId) (key : I.Key) (result : Result I (I.Value key))

namespace Event

/-- An event that begins or ends the construction of a key. -/
def Builds (k : I.Key) : Event I → Prop
  | .begins _ r => I.key r = k
  | .ends _ k' _ => k' = k
  | .answers _ _ _ => False

instance (k : I.Key) : DecidablePred (Builds k) := fun e =>
  match e with
  | .begins _ r => inferInstanceAs (Decidable (I.key r = k))
  | .ends _ k' _ => inferInstanceAs (Decidable (k' = k))
  | .answers _ _ _ => inferInstanceAs (Decidable False)

end Event

/-! ## The events of a run -/

/-- What the next step of a thread means for a request, if anything. -/
def Control.event? (t : ThreadId) (w : World I σ) :
    {goal : Goal I.Key} → Control I α goal → Option (Event I)
  | _, .run (.request r _) => if (w.cells.get? (I.key r)).isSome then none else some (.begins t r)
  | _, .wait k .inspect _ => (Thread.answer? w k).map (.answers t k)
  | _, .wait k (.chase owner) _ =>
    if owner = t then some (.answers t k (.error (.cyclic k))) else none
  | _, .leave k result _ => some (.answers t k result)
  | .construct k, .publish ending => some (.ends t k ending)
  | _, _ => none

namespace Machine

/-- The event of the step that a thread is about to take. -/
def event? (m : Machine I σ α) (t : ThreadId) : Option (Event I) :=
  (m.threads[t]?).bind fun thread => thread.control.event? t m.world

/-- The events of a run, in the order in which they happen. -/
def log (recipes : Recipes I σ) (m : Machine I σ α) : List ThreadId → List (Event I)
  | [] => []
  | t :: schedule =>
    match m.step recipes t with
    | some m' => (m.event? t).toList ++ m'.log recipes schedule
    | none => m.log recipes schedule

end Machine

/-! ## What a step can do -/

/-- The slots of a world are as they were, as far as states and owners go. -/
def World.Keeps (w w' : World I σ) : Prop :=
  ∀ k, w'.state? k = w.state? k ∧ w'.owner? k = w.owner? k

/-- A thread has a request for a key pending, and what is to be done with its result. -/
def Control.Pending {goal : Goal I.Key} (control : Control I α goal) (k : I.Key)
    (next : Result I (I.Value k) → Task I (goal.Value I α)) : Prop :=
  (∃ phase, control = .wait k phase next) ∨ ∃ result, control = .leave k result next

/-- The moves of a thread, with the event of each. -/
inductive Thread.Move (recipes : Recipes I σ) (t : ThreadId) (w : World I σ) :
    Thread I α → Option (Event I) → Thread I α → World I σ → Prop
  | act {goal : Goal I.Key} {frames : Frames I α goal} {action : I.Action}
      {next : I.Answer action → Task I (goal.Value I α)} :
      Move recipes t w ⟨goal, .run (.act action next), frames⟩ none
        ⟨goal, .run (next (recipes.act action w.shared).1), frames⟩
        { w with shared := (recipes.act action w.shared).2 }
  | peek {goal : Goal I.Key} {frames : Frames I α goal} {k : I.Key}
      {next : Option (I.Value k) → Task I (goal.Value I α)} :
      Move recipes t w ⟨goal, .run (.peek k next), frames⟩ none
        ⟨goal, .run (next (w.ready? k)), frames⟩ w
  | begins {goal : Goal I.Key} {frames : Frames I α goal} {r : I.Request}
      {next : Result I (I.Value (I.key r)) → Task I (goal.Value I α)}
      (hfree : w.cells.get? (I.key r) = none) :
      Move recipes t w ⟨goal, .run (.request r next), frames⟩ (some (.begins t r))
        ⟨.construct (I.key r), .run (recipes.factory r), .enclosed (I.key r) next frames⟩
        (w.install t (I.key r))
  | arrive {goal : Goal I.Key} {frames : Frames I α goal} {r : I.Request}
      {next : Result I (I.Value (I.key r)) → Task I (goal.Value I α)}
      (htaken : (w.cells.get? (I.key r)).isSome) :
      Move recipes t w ⟨goal, .run (.request r next), frames⟩ none
        ⟨goal, .wait (I.key r) .inspect next, frames⟩ w
  | wait {goal : Goal I.Key} {frames : Frames I α goal} {control control' : Control I α goal}
      {k : I.Key} {next : Result I (I.Value k) → Task I (goal.Value I α)} {w' : World I σ}
      (hpending : control.Pending k next) (hpending' : control'.Pending k next)
      (hleave : ∀ result, control' = .leave k result next → Thread.answer? w k = some result)
      (hkeep : w.Keeps w') :
      Move recipes t w ⟨goal, control, frames⟩ none ⟨goal, control', frames⟩ w'
  | answers {goal : Goal I.Key} {frames : Frames I α goal} {control : Control I α goal}
      {k : I.Key} {next : Result I (I.Value k) → Task I (goal.Value I α)}
      {result : Result I (I.Value k)} {w' : World I σ} (hpending : control.Pending k next)
      (hresult : result = .error (.cyclic k) ∨ Thread.answer? w k = some result ∨
        control = .leave k result next)
      (hkeep : w.Keeps w') :
      Move recipes t w ⟨goal, control, frames⟩ (some (.answers t k result))
        ⟨goal, .run (next result), frames⟩ w'
  | finish {goal : Goal I.Key} {k : I.Key} {task : Task I (I.Value k)}
      {next : Result I (I.Value k) → Task I (goal.Value I α)} {rest : Frames I α goal}
      {ending : Option (Result I (I.Value k))} (htask : task = ending.elim .panic .done) :
      Move recipes t w ⟨.construct k, .run task, .enclosed k next rest⟩ none
        ⟨.construct k, .publish ending, .enclosed k next rest⟩ (w.finish k)
  | ends {goal : Goal I.Key} {k : I.Key} {next : Result I (I.Value k) → Task I (goal.Value I α)}
      {rest : Frames I α goal} {ending : Option (Result I (I.Value k))} :
      Move recipes t w ⟨.construct k, .publish ending, .enclosed k next rest⟩
        (some (.ends t k ending)) ⟨goal, .run (ending.elim .panic next), rest⟩
        (w.settle k (Thread.endingState ending))

namespace World

variable {w w' : World I σ} {k : I.Key}

theorem Keeps.refl (w : World I σ) : w.Keeps w := fun _ => ⟨rfl, rfl⟩

theorem keeps_of_cells (h : w'.cells = w.cells) : w.Keeps w' := fun k => by
  simp [state?, owner?, h]

theorem owner?_modifyCell {f : Cell (I.Value k) → Cell (I.Value k)}
    (hkeep : ∀ cell, (f cell).owner = cell.owner) (w : World I σ) (k' : I.Key) :
    (w.modifyCell k f).owner? k' = w.owner? k' := by
  by_cases hk : k' = k
  · subst hk
    rw [owner?, get?_modifyCell_self, owner?, Option.map_map]
    congr 1
    exact funext hkeep
  · rw [owner?, get?_modifyCell_of_ne hk, owner?]

theorem keeps_modifyCell {f : Cell (I.Value k) → Cell (I.Value k)}
    (hstate : ∀ cell, (f cell).state = cell.state) (howner : ∀ cell, (f cell).owner = cell.owner) :
    w.Keeps (w.modifyCell k f) := fun k' =>
  ⟨state?_modifyCell hstate k', owner?_modifyCell howner w k'⟩

theorem owner?_install (w : World I σ) (t : ThreadId) (k : I.Key) :
    (w.install t k).owner? k = some t := by
  simp [owner?, install]

theorem owner?_install_of_ne {k' : I.Key} (hne : k' ≠ k) (w : World I σ) (t : ThreadId) :
    (w.install t k).owner? k' = w.owner? k' := by
  rw [owner?, install, Table.get?_set_of_ne hne, owner?]

theorem owner?_settle (w : World I σ) (k k' : I.Key) (state : SlotState (I.Value k)) :
    (w.settle k state).owner? k' = w.owner? k' :=
  owner?_modifyCell (f := fun cell => { cell with state, sleepers := [] }) (fun _ => rfl) w k'

end World

namespace Thread

variable {recipes : Recipes I σ} {t : ThreadId} {w w' : World I σ} {goal : Goal I.Key}
  {frames : Frames I α goal}

/-- A thread that waits on. -/
theorem Move.of_wait {k : I.Key} {phase phase' : Phase}
    {next : Result I (I.Value k) → Task I (goal.Value I α)} (hkeep : w.Keeps w') :
    Move recipes t w ⟨goal, .wait k phase next, frames⟩ none ⟨goal, .wait k phase' next, frames⟩
      w' :=
  .wait (.inl ⟨phase, rfl⟩) (.inl ⟨phase', rfl⟩) nofun hkeep

theorem move_of_waitsTo {k : I.Key} {phase : Phase}
    {next : Result I (I.Value k) → Task I (goal.Value I α)} {control : Control I α goal}
    (hwait : WaitsTo t w k next phase control w') :
    Move recipes t w ⟨goal, .wait k phase next, frames⟩
      ((.wait k phase next : Control I α goal).event? t w) ⟨goal, control, frames⟩ w' := by
  have hpending : (.wait k phase next : Control I α goal).Pending k next := .inl ⟨phase, rfl⟩
  cases hwait with
  | answer hanswer =>
    rw [Control.event?, hanswer]
    exact .answers hpending (.inr (.inl hanswer)) (.refl w)
  | queue hopen =>
    rw [Control.event?, hopen]
    exact .of_wait (.refl w)
  | enter => exact .of_wait (World.keeps_of_cells rfl)
  | skip => exact .of_wait (World.keeps_of_cells rfl)
  | chase => exact .of_wait (.refl w)
  | refuse =>
    rw [Control.event?, if_pos rfl]
    exact .answers hpending (.inl rfl) (World.keeps_of_cells rfl)
  | commit hother =>
    rw [Control.event?, if_neg hother]
    exact .of_wait (World.keeps_of_cells rfl)
  | follow hother =>
    rw [Control.event?, if_neg hother]
    exact .of_wait (.refl w)
  | wake hanswer =>
    refine .wait hpending (.inr ⟨_, rfl⟩) (fun result heq => ?_) (.refl w)
    obtain rfl := (Control.leave.inj heq).2.1
    exact hanswer
  | doze => exact .of_wait (World.keeps_modifyCell (fun _ => rfl) fun _ => rfl)
  | stir => exact .of_wait (.refl w)

/-- Every step of a thread is one of its moves, and its event is the event of that move. -/
theorem move_of_stepsTo {thread thread' : Thread I α} (hstep : thread.StepsTo recipes t w thread' w') :
    Move recipes t w thread (thread.control.event? t w) thread' w' := by
  cases hstep with
  | act => exact .act
  | peek => exact .peek
  | arrive htaken =>
    rw [Control.event?, if_pos htaken]
    exact .arrive htaken
  | @begins goal frames r next hfree =>
    have hnone : ¬(w.cells.get? (I.key r)).isSome := by simp [hfree]
    rw [Control.event?, if_neg hnone]
    exact .begins hfree
  | @finish goal k task next rest ending htask =>
    subst htask
    cases ending <;> exact .finish rfl
  | wait hwait => exact move_of_waitsTo hwait
  | leave => exact .answers (.inr ⟨_, rfl⟩) (.inr (.inr rfl)) (World.keeps_of_cells rfl)
  | publish => exact .ends

end Thread

/-! ## Runs -/

namespace Machine

variable {recipes : Recipes I σ} {m m' : Machine I σ α} {t u : ThreadId}

/-- A step of a machine is a move of one of its threads. -/
theorem move_of_step (hstep : m.step recipes t = some m') :
    ∃ thread thread' w, m.threads[t]? = some thread ∧
      Thread.Move recipes t m.world thread (m.event? t) thread' w ∧
        m' = ⟨m.threads.set t thread', w⟩ := by
  obtain ⟨thread, thread', w, hthread, hnext, rfl⟩ := stepsTo_of_step hstep
  refine ⟨thread, thread', w, hthread, ?_, rfl⟩
  rw [event?, hthread]
  exact Thread.move_of_stepsTo hnext

theorem threads_step_of_ne (hstep : m.step recipes u = some m') (hne : t ≠ u) :
    m'.threads[t]? = m.threads[t]? := by
  obtain ⟨thread, thread', w, hthread, -, rfl⟩ := step_eq_some hstep
  exact List.getElem?_set_ne (Ne.symm hne)

theorem length_threads_step (hstep : m.step recipes t = some m') :
    m'.threads.length = m.threads.length := by
  obtain ⟨thread, thread', w, hthread, -, rfl⟩ := step_eq_some hstep
  exact List.length_set

theorem threads_set_self {thread : Thread I α} (hthread : m.threads[t]? = some thread)
    (thread' : Thread I α) (w : World I σ) :
    (⟨m.threads.set t thread', w⟩ : Machine I σ α).threads[t]? = some thread' :=
  List.getElem?_set_self (List.getElem?_eq_some_iff.mp hthread).1

/-- What every step preserves holds after a run. -/
theorem follow_preserves {P : Machine I σ α → Prop}
    (hstep : ∀ m t m', P m → m.step recipes t = some m' → P m') (hm : P m)
    (schedule : List ThreadId) : P (m.follow recipes schedule) := by
  induction schedule generalizing m with
  | nil => exact hm
  | cons t schedule ih =>
    rw [follow]
    cases hnext : m.step recipes t with
    | none => exact ih hm
    | some m' => exact ih (hstep m t m' hm hnext)

/-- What every step, with its event, preserves holds after a run, with its events. -/
theorem log_preserves {P : List (Event I) → Machine I σ α → Prop}
    (hstep : ∀ log m t m', P log m → m.step recipes t = some m' →
      P (log ++ (m.event? t).toList) m') {log : List (Event I)} (hm : P log m)
    (schedule : List ThreadId) : P (log ++ m.log recipes schedule) (m.follow recipes schedule) := by
  induction schedule generalizing m log with
  | nil => rwa [Machine.log, List.append_nil]
  | cons t schedule ih =>
    rw [follow, Machine.log]
    cases hnext : m.step recipes t with
    | none => exact ih hm
    | some m' =>
      rw [← List.append_assoc]
      exact ih (hstep log m t m' hm hnext)

theorem threads_follow_of_not_mem {schedule : List ThreadId} (hout : t ∉ schedule) :
    (m.follow recipes schedule).threads[t]? = m.threads[t]? := by
  induction schedule generalizing m with
  | nil => rfl
  | cons u schedule ih =>
    obtain ⟨hne, hrest⟩ := not_or.mp (mt List.mem_cons.mpr hout)
    rw [follow, ih hrest]
    cases hnext : m.step recipes u with
    | none => rfl
    | some m' => exact threads_step_of_ne hnext hne

/-- What a thread is about to do it does, whatever the others do before. -/
theorem step_follow {schedule : List ThreadId} {thread thread' : Thread I α} {w : World I σ}
    (hthread : m.threads[t]? = some thread) (hout : t ∉ schedule)
    (hstep : thread.step recipes t (m.follow recipes schedule).world = some (thread', w)) :
    ∃ m', (m.follow recipes schedule).step recipes t = some m' ∧
      (m.follow recipes schedule).event? t =
        thread.control.event? t (m.follow recipes schedule).world ∧
      m'.threads[t]? = some thread' ∧ m'.world = w := by
  rw [← threads_follow_of_not_mem hout] at hthread
  refine ⟨⟨(m.follow recipes schedule).threads.set t thread', w⟩, ?_, ?_,
    threads_set_self hthread thread' w, rfl⟩
  · rw [step, hthread]
    exact Option.map_eq_some_iff.mpr ⟨_, hstep, rfl⟩
  · rw [event?, hthread, Option.bind_some]

end Machine

end ShaderLowering.Construction
