import Mathlib.Data.List.Basic
import ShaderLowering.Proofs.Threads.Endings
import ShaderLowering.Proofs.Threads.Events

/-!
# Constructed once, and the same for all

However the steps of threads are interleaved, the construction of a key begins at most once; its slot
is settled once, with what that construction ended with, and never changes again; and every answer to a
request for the key agrees with that ending (`agreement_follow`).  Nothing is assumed of factories: they
may request any keys, fail, panic, or go on for ever.

`Fate` puts together what the log and the slot say of one key.  It is kept by every step, because a
step that is an event of a key's construction finds the key in the state before: `begins` finds it free,
and `ends` finds it under construction by the same thread, since only the thread that has begun the
construction has the key on its stack (`Board.Coherent`).
-/

namespace ShaderLowering.Construction

variable {I : Interface} {σ α : Type}

/-- The events of a log that begin or end the construction of a key. -/
def constructionsOf (k : I.Key) (log : List (Event I)) : List (Event I) :=
  log.filter fun e => e.Builds k

/-- What has become of a key: nothing, a construction under way, or one construction and its end.  The
slot is in the state that the construction has left it in. -/
inductive Fate (log : List (Event I)) (w : World I σ) (k : I.Key) : Prop
  | free (hslot : w.state? k = none) (hlog : constructionsOf k log = [])
  | underway {t : ThreadId} {r : I.Request} (hkey : I.key r = k)
      (hslot : w.state? k = some .building) (howner : w.owner? k = some t)
      (hlog : constructionsOf k log = [.begins t r])
  | settled {t : ThreadId} {r : I.Request} {ending : Option (Result I (I.Value k))}
      (hkey : I.key r = k) (hslot : w.state? k = some (Thread.endingState ending))
      (hlog : constructionsOf k log = [.begins t r, .ends t k ending])

/-- A log bears out the result of a request that has not invoked a factory: a value is the one that the
factory returned; the construction is called failed only if the factory failed or panicked; and the only
other result is a cycle. -/
inductive Justified (log : List (Event I)) (k : I.Key) : Result I (I.Value k) → Prop
  | ok {t : ThreadId} {v : I.Value k} (hends : .ends t k (some (.ok v)) ∈ log) : Justified log k (.ok v)
  | poisoned {t : ThreadId} {ending : Option (Result I (I.Value k))}
      (hfailed : ∀ v, ending ≠ some (.ok v)) (hends : .ends t k ending ∈ log) :
      Justified log k (.error (.poisoned k))
  | cyclic : Justified log k (.error (.cyclic k))

/-- What holds at every moment of every run. -/
structure Agreement (recipes : Recipes I σ) (log : List (Event I)) (m : Machine I σ α) : Prop where
  /-- The log tells the truth: the event of every step is the event of a move that the step is. -/
  truthful : ∀ t m', m.step recipes t = some m' → ∃ thread thread',
    m.threads[t]? = some thread ∧ m'.threads[t]? = some thread' ∧
    Thread.Move recipes t m.world thread (m.event? t) thread' m'.world
  /-- At most one construction of a key begins, and it ends at most once. -/
  fate : ∀ k, Fate log m.world k
  /-- When a request returns that has not invoked a factory, the log bears out its result. -/
  justified : ∀ t k result, (m.step recipes t).isSome → m.event? t = some (.answers t k result) →
    Justified log k result
  /-- A settled slot never changes. -/
  lasting : ∀ k state, m.world.state? k = some state → state ≠ .building →
    ∀ schedule, (m.follow recipes schedule).world.state? k = some state
  /-- A factory that is over settles its slot in two steps, which nobody can hold up. -/
  settling : ∀ (t : ThreadId) (goal : Goal I.Key) (k : I.Key)
    (next : Result I (I.Value k) → Task I (goal.Value I α)) (rest : Frames I α goal)
    (ending : Option (Result I (I.Value k))),
    m.threads[t]? = some ⟨.construct k, .run (ending.elim .panic .done), .enclosed k next rest⟩ →
    ∀ schedule schedule', t ∉ schedule → t ∉ schedule' → ∃ m₁ m₂,
      (m.follow recipes schedule).step recipes t = some m₁ ∧
      (m₁.follow recipes schedule').step recipes t = some m₂ ∧
      (m₁.follow recipes schedule').event? t = some (.ends t k ending) ∧
      m₂.world.state? k = some (Thread.endingState ending)
  /-- A request for a settled slot takes two steps, which nobody can hold up: it does not invoke its
  factory, and it is given the answer of the slot. -/
  prompt : ∀ t goal r next frames result,
    m.threads[t]? = some ⟨goal, .run (.request r next), frames⟩ →
    Thread.answer? m.world (I.key r) = some result →
    ∀ schedule schedule', t ∉ schedule → t ∉ schedule' → ∃ m₁ m₂,
      (m.follow recipes schedule).step recipes t = some m₁ ∧
      (m.follow recipes schedule).event? t = none ∧
      (m₁.follow recipes schedule').step recipes t = some m₂ ∧
      (m₁.follow recipes schedule').event? t = some (.answers t (I.key r) result) ∧
      m₂.threads[t]? = some ⟨goal, .run (next result), frames⟩
  /-- When all threads have come to their end, no slot is left under construction. -/
  complete : m.isOver = true → ∀ k, m.world.state? k ≠ some .building

/-! ## What a step does to slots -/

/-- What a slot in a state answers to a request for its key. -/
def SlotState.answer? (k : I.Key) : SlotState (I.Value k) → Option (Result I (I.Value k))
  | .building => none
  | .ready v => some (.ok v)
  | .failed => some (.error (.poisoned k))

namespace Thread

variable {recipes : Recipes I σ} {t : ThreadId} {w w' : World I σ} {thread thread' : Thread I α}
  {event : Option (Event I)}

theorem answer?_eq (w : World I σ) (k : I.Key) :
    answer? w k = (w.state? k).bind (SlotState.answer? k) := by
  unfold answer? World.state?
  split
  · next hcell => rw [hcell]; rfl
  · next hcell => rw [hcell]; rfl
  · next hready hfailed =>
    rcases hcell : w.cells.get? k with _ | ⟨owner, finished, _ | v | _, sleepers⟩
    · rfl
    · rfl
    · exact absurd hcell (hready owner finished v sleepers)
    · exact absurd hcell (hfailed owner finished sleepers)

/-- Slots change when a construction begins or ends, and only then. -/
theorem Move.cases_slots (hmove : Move recipes t w thread event thread' w') :
    (w.Keeps w' ∧ ∀ e ∈ event, ∀ k, ¬e.Builds k) ∨
      (∃ r, event = some (.begins t r) ∧ w.cells.get? (I.key r) = none ∧
        w' = w.install t (I.key r)) ∨
      ∃ (k : I.Key) (ending : Option (Result I (I.Value k))), event = some (.ends t k ending) ∧
        k ∈ thread.keys ∧ w' = w.settle k (endingState ending) := by
  cases hmove with
  | act => exact .inl ⟨World.keeps_of_cells rfl, nofun⟩
  | peek => exact .inl ⟨.refl w, nofun⟩
  | arrive htaken => exact .inl ⟨.refl w, nofun⟩
  | wait _ _ _ hkeep => exact .inl ⟨hkeep, nofun⟩
  | answers _ _ hkeep =>
    refine .inl ⟨hkeep, fun e he k hbuilds => ?_⟩
    obtain rfl := Option.some.inj he
    exact hbuilds
  | finish => exact .inl ⟨World.keeps_modifyCell (fun _ => rfl) fun _ => rfl, nofun⟩
  | begins hfree => exact .inr (.inl ⟨_, rfl, hfree, rfl⟩)
  | ends => exact .inr (.inr ⟨_, _, rfl, List.mem_cons_self, rfl⟩)

/-- A thread only leaves with what the slot has answered. -/
theorem Move.answer_of_leave (hmove : Move recipes t w thread event thread' w')
    {goal : Goal I.Key} {k : I.Key} {result : Result I (I.Value k)}
    {next : Result I (I.Value k) → Task I (goal.Value I α)} {frames : Frames I α goal}
    (hleave : thread' = ⟨goal, .leave k result next, frames⟩) : answer? w k = some result := by
  cases hmove with
  | wait _ hpending' hanswer =>
    obtain ⟨rfl, hcontrol, -⟩ := Thread.mk.inj hleave
    obtain rfl := eq_of_heq hcontrol
    rcases hpending' with ⟨phase, heq⟩ | ⟨result', heq⟩
    · cases heq
    · cases heq
      exact hanswer result rfl
  | _ =>
    obtain ⟨rfl, hcontrol, -⟩ := Thread.mk.inj hleave
    cases eq_of_heq hcontrol

end Thread

namespace Machine

variable {recipes : Recipes I σ} {m m' : Machine I σ α} {t : ThreadId} {k : I.Key}

theorem owner?_of_mem_keys (hcoherent : m.board.Coherent) (hk : k ∈ m.board.keys t) :
    m.world.owner? k = some t := by
  obtain ⟨s, hs, howner, -⟩ := hcoherent.stacked t k hk
  have hslot : m.world.standings k = some s := hs
  rw [World.owner?_eq, hslot, Option.map_some, howner]

/-- A settled slot stays as it is. -/
theorem state?_step (hcoherent : m.board.Coherent) (hstep : m.step recipes t = some m')
    {state : SlotState (I.Value k)} (hslot : m.world.state? k = some state)
    (hsettled : state ≠ .building) : m'.world.state? k = some state := by
  obtain ⟨thread, thread', w, hthread, hmove, rfl⟩ := move_of_step hstep
  rcases hmove.cases_slots with ⟨hkeep, -⟩ | ⟨r, -, hfree, rfl⟩ | ⟨k', ending, -, hmem, rfl⟩
  · rwa [(hkeep k).1]
  · have hne : k ≠ I.key r := by
      rintro rfl
      rw [World.state?, hfree] at hslot
      cases hslot
    rwa [World.state?_install_of_ne hne]
  · have hopen := Discipline.building_of_mem_keys hcoherent (by rwa [board_keys hthread])
    have hne : k ≠ k' := by
      rintro rfl
      exact hsettled (Option.some.inj (hslot.symm.trans hopen))
    rwa [World.state?_settle_of_ne hne]

end Machine

/-! ## The fate of a key -/

theorem constructionsOf_append (k : I.Key) (log log' : List (Event I)) :
    constructionsOf k (log ++ log') = constructionsOf k log ++ constructionsOf k log' :=
  List.filter_append ..

theorem constructionsOf_eq_nil {k : I.Key} {event : Option (Event I)}
    (h : ∀ e ∈ event, ¬e.Builds k) : constructionsOf k event.toList = [] :=
  List.filter_eq_nil_iff.mpr fun e he => by simpa using h e (Option.mem_toList.mp he)

theorem constructionsOf_singleton {k : I.Key} {e : Event I} (h : e.Builds k) :
    constructionsOf k [e] = [e] :=
  List.filter_cons_of_pos (decide_eq_true h)

namespace Fate

variable {log : List (Event I)} {w w' : World I σ} {k : I.Key}

/-- The fate of a key whose slot is kept and of whose construction nothing is heard. -/
theorem keep (h : Fate log w k) {event : Option (Event I)} (hevent : ∀ e ∈ event, ¬e.Builds k)
    (hslot : w'.state? k = w.state? k) (howner : w'.owner? k = w.owner? k) :
    Fate (log ++ event.toList) w' k := by
  have hlog : constructionsOf k (log ++ event.toList) = constructionsOf k log := by
    rw [constructionsOf_append, constructionsOf_eq_nil hevent, List.append_nil]
  cases h with
  | free h₁ h₂ => exact .free (hslot.trans h₁) (hlog.trans h₂)
  | underway hkey h₁ h₂ h₃ => exact .underway hkey (hslot.trans h₁) (howner.trans h₂) (hlog.trans h₃)
  | settled hkey h₁ h₂ => exact .settled hkey (hslot.trans h₁) (hlog.trans h₂)

theorem begins (h : Fate log w k) {t : ThreadId} {r : I.Request} (hkey : I.key r = k)
    (hfree : w.state? k = none) : Fate (log ++ [.begins t r]) (w.install t k) k := by
  cases h with
  | free _ hlog =>
    refine .underway hkey (World.state?_install ..) (World.owner?_install ..) ?_
    rw [constructionsOf_append, hlog, List.nil_append]
    exact constructionsOf_singleton hkey
  | underway _ hslot => rw [hfree] at hslot; cases hslot
  | settled _ hslot => rw [hfree] at hslot; cases hslot

theorem ends (h : Fate log w k) {t : ThreadId} {ending : Option (Result I (I.Value k))}
    (hopen : w.state? k = some .building) (howner : w.owner? k = some t) :
    Fate (log ++ [.ends t k ending]) (w.settle k (Thread.endingState ending)) k := by
  cases h with
  | free hslot => rw [hopen] at hslot; cases hslot
  | underway hkey hslot howner' hlog =>
    have hsame := Option.some.inj (howner'.symm.trans howner)
    refine .settled (t := t) hkey (World.state?_settle _ (by rw [hopen]; rfl)) ?_
    rw [constructionsOf_append, hlog, hsame]
    exact congrArg _ (constructionsOf_singleton rfl)
  | settled _ hslot =>
    rw [hopen] at hslot
    exact absurd (Option.some.inj hslot).symm (Thread.endingState_ne_building _)

/-- What a settled slot answers is borne out by the log. -/
theorem justified (h : Fate log w k) {result : Result I (I.Value k)}
    (hanswer : Thread.answer? w k = some result) : Justified log k result := by
  rw [Thread.answer?_eq] at hanswer
  cases h with
  | free hslot => rw [hslot] at hanswer; cases hanswer
  | underway _ hslot => rw [hslot] at hanswer; cases hanswer
  | @settled t r ending _ hslot hlog =>
    have hends : .ends t k ending ∈ log := List.mem_of_mem_filter (p := fun e => e.Builds k)
      (by rw [← constructionsOf, hlog]; simp)
    rw [hslot] at hanswer
    rcases ending with _ | e | v
    · obtain rfl := Option.some.inj hanswer
      exact .poisoned (fun v heq => by cases heq) hends
    · obtain rfl := Option.some.inj hanswer
      exact .poisoned (fun v heq => by cases heq) hends
    · obtain rfl := Option.some.inj hanswer
      exact .ok hends

end Fate

/-! ## Every step -/

/-- What a run preserves: the parts of a machine agree with each other, every key with its log, and a
thread that has seen a slot settled leaves with the answer of that slot. -/
structure Recorded (log : List (Event I)) (m : Machine I σ α) : Prop where
  coherent : m.board.Coherent
  fate : ∀ k, Fate log m.world k
  leaving : ∀ (t : ThreadId) (goal : Goal I.Key) (k : I.Key) (result : Result I (I.Value k))
    (next : Result I (I.Value k) → Task I (goal.Value I α)) (frames : Frames I α goal),
    m.threads[t]? = some ⟨goal, .leave k result next, frames⟩ →
    Thread.answer? m.world k = some result

namespace Recorded

variable {recipes : Recipes I σ} {log : List (Event I)} {m m' : Machine I σ α} {t : ThreadId}

theorem fate_step (h : Recorded log m) (hstep : m.step recipes t = some m') (k : I.Key) :
    Fate (log ++ (m.event? t).toList) m'.world k := by
  obtain ⟨thread, thread', w, hthread, hmove, rfl⟩ := Machine.move_of_step hstep
  rcases hmove.cases_slots with ⟨hkeep, hsilent⟩ | ⟨r, hevent, hfree, rfl⟩ |
    ⟨k', ending, hevent, hmem, rfl⟩
  · exact (h.fate k).keep (fun e he => hsilent e he k) (hkeep k).1 (hkeep k).2
  · rw [hevent]
    by_cases hk : I.key r = k
    · subst hk
      exact (h.fate _).begins rfl (by rw [World.state?, hfree]; rfl)
    · refine (h.fate k).keep (fun e he => ?_) (World.state?_install_of_ne (Ne.symm hk) _ _)
        (World.owner?_install_of_ne (Ne.symm hk) _ _)
      obtain rfl := Option.some.inj he
      exact hk
  · rw [hevent]
    by_cases hk : k' = k
    · subst hk
      rw [← Machine.board_keys hthread] at hmem
      exact (h.fate _).ends (Discipline.building_of_mem_keys h.coherent hmem)
        (Machine.owner?_of_mem_keys h.coherent hmem)
    · refine (h.fate k).keep (fun e he => ?_) (World.state?_settle_of_ne (Ne.symm hk) _ _)
        (World.owner?_settle ..)
      obtain rfl := Option.some.inj he
      exact hk

/-- A slot that answers goes on giving that answer. -/
theorem answer?_step (h : Recorded log m) (hstep : m.step recipes t = some m') {k : I.Key}
    {result : Result I (I.Value k)} (hanswer : Thread.answer? m.world k = some result) :
    Thread.answer? m'.world k = some result := by
  rw [Thread.answer?_eq] at hanswer ⊢
  obtain ⟨state, hslot, hstate⟩ := Option.bind_eq_some_iff.mp hanswer
  rw [Machine.state?_step h.coherent hstep hslot, Option.bind_some, hstate]
  rintro rfl
  cases hstate

theorem step (h : Recorded log m) (hstep : m.step recipes t = some m') :
    Recorded (log ++ (m.event? t).toList) m' := by
  refine ⟨h.coherent.step (Machine.board_step hstep), h.fate_step hstep, ?_⟩
  intro u goal k result next frames hthread
  by_cases hne : u = t
  case neg =>
    rw [Machine.threads_step_of_ne hstep hne] at hthread
    exact h.answer?_step hstep (h.leaving u goal k result next frames hthread)
  subst hne
  refine h.answer?_step hstep ?_
  obtain ⟨before, after, w, hbefore, hmove, rfl⟩ := Machine.move_of_step hstep
  rw [List.getElem?_set_self (List.getElem?_eq_some_iff.mp hbefore).1] at hthread
  exact hmove.answer_of_leave (Option.some.inj hthread)

theorem follow (h : Recorded log m) (recipes : Recipes I σ) (schedule : List ThreadId) :
    Recorded (log ++ m.log recipes schedule) (m.follow recipes schedule) :=
  Machine.log_preserves (fun _ _ _ _ hbefore hstep => hbefore.step hstep) h schedule

theorem start (tasks : List (Task I α)) (shared : σ) : Recorded [] (Machine.start tasks shared) := by
  refine ⟨Machine.coherent_start tasks shared, fun k => .free rfl rfl, ?_⟩
  intro t goal k result next frames hthread
  have hrun := Machine.board_stage_start tasks shared t
  rw [Machine.board_stage hthread] at hrun
  cases hrun

/-- The log bears out every answer. -/
theorem justified (h : Recorded log m) {k : I.Key} {result : Result I (I.Value k)}
    (hstep : m.step recipes t = some m') (hevent : m.event? t = some (.answers t k result)) :
    Justified log k result := by
  obtain ⟨thread, thread', w, hthread, hmove, rfl⟩ := Machine.move_of_step hstep
  rw [hevent] at hmove
  cases hmove with
  | answers _ hresult =>
    rcases hresult with rfl | hanswer | rfl
    · exact .cyclic
    · exact (h.fate k).justified hanswer
    · exact (h.fate k).justified (h.leaving t _ k result _ _ hthread)

/-- A slot that answers gives that answer for good. -/
theorem answer?_follow (h : Recorded log m) (recipes : Recipes I σ) (schedule : List ThreadId)
    {k : I.Key} {result : Result I (I.Value k)} (hanswer : Thread.answer? m.world k = some result) :
    Thread.answer? (m.follow recipes schedule).world k = some result :=
  (Machine.log_preserves
    (P := fun log m => Recorded log m ∧ Thread.answer? m.world k = some result)
    (fun _ _ _ _ hbefore hstep => ⟨hbefore.1.step hstep, hbefore.1.answer?_step hstep hbefore.2⟩)
    ⟨h, hanswer⟩ schedule).2

theorem state?_follow (h : Recorded log m) (recipes : Recipes I σ) (schedule : List ThreadId)
    {k : I.Key} {state : SlotState (I.Value k)} (hslot : m.world.state? k = some state)
    (hsettled : state ≠ .building) : (m.follow recipes schedule).world.state? k = some state :=
  (Machine.log_preserves (P := fun log m => Recorded log m ∧ m.world.state? k = some state)
    (fun _ _ _ _ hbefore hstep =>
      ⟨hbefore.1.step hstep, Machine.state?_step hbefore.1.coherent hstep hbefore.2 hsettled⟩)
    ⟨h, hslot⟩ schedule).2

/-- A factory that is over settles its slot in two steps, whatever the others do before each. -/
theorem settling (h : Recorded log m) (recipes : Recipes I σ) {goal : Goal I.Key} {k : I.Key}
    {next : Result I (I.Value k) → Task I (goal.Value I α)} {rest : Frames I α goal}
    {ending : Option (Result I (I.Value k))}
    (hthread : m.threads[t]? =
      some ⟨.construct k, .run (ending.elim .panic .done), .enclosed k next rest⟩)
    {schedule schedule' : List ThreadId} (hout : t ∉ schedule) (hout' : t ∉ schedule') :
    ∃ m₁ m₂, (m.follow recipes schedule).step recipes t = some m₁ ∧
      (m₁.follow recipes schedule').step recipes t = some m₂ ∧
      (m₁.follow recipes schedule').event? t = some (.ends t k ending) ∧
      m₂.world.state? k = some (Thread.endingState ending) := by
  -- The first step raises the flag of the slot, the second one sets its state.
  have hfirst : (⟨.construct k, .run (ending.elim .panic .done), .enclosed k next rest⟩ :
      Thread I α).step recipes t (m.follow recipes schedule).world =
      some (⟨.construct k, .publish ending, .enclosed k next rest⟩,
        (m.follow recipes schedule).world.finish k) := by
    cases ending <;> rfl
  obtain ⟨m₁, hstep₁, -, hthread₁, -⟩ := Machine.step_follow hthread hout hfirst
  obtain ⟨m₂, hstep₂, hevent₂, -, hworld₂⟩ := Machine.step_follow hthread₁ hout' rfl
  refine ⟨m₁, m₂, hstep₁, hstep₂, hevent₂, ?_⟩
  have hrecorded := ((h.follow recipes schedule).step hstep₁).follow recipes schedule'
  have hmem : k ∈ (m₁.follow recipes schedule').board.keys t := by
    rw [← Machine.threads_follow_of_not_mem hout'] at hthread₁
    rw [Machine.board_keys hthread₁]
    exact List.mem_cons_self
  rw [hworld₂, World.state?_settle]
  rw [Discipline.building_of_mem_keys hrecorded.coherent hmem]
  rfl

/-- A request for a slot that answers is answered in two steps, whatever the others do before each. -/
theorem prompt (h : Recorded log m) (recipes : Recipes I σ) {goal : Goal I.Key} {r : I.Request}
    {next : Result I (I.Value (I.key r)) → Task I (goal.Value I α)} {frames : Frames I α goal}
    {result : Result I (I.Value (I.key r))}
    (hthread : m.threads[t]? = some ⟨goal, .run (.request r next), frames⟩)
    (hanswer : Thread.answer? m.world (I.key r) = some result)
    {schedule schedule' : List ThreadId} (hout : t ∉ schedule) (hout' : t ∉ schedule') :
    ∃ m₁ m₂, (m.follow recipes schedule).step recipes t = some m₁ ∧
      (m.follow recipes schedule).event? t = none ∧
      (m₁.follow recipes schedule').step recipes t = some m₂ ∧
      (m₁.follow recipes schedule').event? t = some (.answers t (I.key r) result) ∧
      m₂.threads[t]? = some ⟨goal, .run (next result), frames⟩ := by
  have hanswer₁ := h.answer?_follow recipes schedule hanswer
  have htaken : ((m.follow recipes schedule).world.cells.get? (I.key r)).isSome := by
    cases hcell : (m.follow recipes schedule).world.cells.get? (I.key r) with
    | none => simp [Thread.answer?, hcell] at hanswer₁
    | some cell => rfl
  have hfirst : (⟨goal, .run (.request r next), frames⟩ : Thread I α).step recipes t
      (m.follow recipes schedule).world =
      some (⟨goal, .wait (I.key r) .inspect next, frames⟩, (m.follow recipes schedule).world) := by
    obtain ⟨cell, hcell⟩ := Option.isSome_iff_exists.mp htaken
    simp [Thread.step, Thread.stepTask, hcell]
  obtain ⟨m₁, hstep₁, hevent₁, hthread₁, hworld₁⟩ := Machine.step_follow hthread hout hfirst
  rw [← hworld₁] at hanswer₁
  -- The slot still answers so before the second step: what is settled stays settled.
  have hanswer₂ := ((h.follow recipes schedule).step hstep₁).answer?_follow recipes schedule' hanswer₁
  have hsecond : (⟨goal, .wait (I.key r) .inspect next, frames⟩ : Thread I α).step recipes t
      (m₁.follow recipes schedule').world =
      some (⟨goal, .run (next result), frames⟩, (m₁.follow recipes schedule').world) := by
    simp [Thread.step, Thread.stepWait, hanswer₂]
  obtain ⟨m₂, hstep₂, hevent₂, hthread₂, -⟩ := Machine.step_follow hthread₁ hout' hsecond
  rw [Control.event?, if_pos htaken] at hevent₁
  rw [Control.event?, hanswer₂, Option.map_some] at hevent₂
  exact ⟨m₁, m₂, hstep₁, hevent₁, hstep₂, hevent₂, hthread₂⟩

theorem agreement (h : Recorded log m) (recipes : Recipes I σ) : Agreement recipes log m where
  truthful t m' hstep := by
    obtain ⟨thread, thread', w, hthread, hmove, rfl⟩ := Machine.move_of_step hstep
    exact ⟨thread, thread', hthread, Machine.threads_set_self hthread thread' w, hmove⟩
  fate := h.fate
  justified t k result henabled hevent := by
    obtain ⟨m', hstep⟩ := Option.isSome_iff_exists.mp henabled
    exact h.justified hstep hevent
  lasting k state hslot hsettled schedule := h.state?_follow recipes schedule hslot hsettled
  settling t goal k next rest ending hthread schedule schedule' hout hout' :=
    h.settling recipes hthread hout hout'
  prompt t goal r next frames result hthread hanswer schedule schedule' hout hout' :=
    h.prompt recipes hthread hanswer hout hout'
  complete hover := Machine.state?_ne_building_of_isOver h.coherent hover

end Recorded

/-- Threads agree on what is constructed, whatever they run and in whatever order they take their
steps. -/
theorem agreement_follow (recipes : Recipes I σ) (tasks : List (Task I α)) (shared : σ)
    (schedule : List ThreadId) :
    Agreement recipes ((Machine.start tasks shared).log recipes schedule)
      ((Machine.start tasks shared).follow recipes schedule) :=
  ((Recorded.start tasks shared).follow recipes schedule).agreement recipes

end ShaderLowering.Construction
