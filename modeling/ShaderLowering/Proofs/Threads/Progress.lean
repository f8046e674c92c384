import Mathlib.Data.Set.Card
import Mathlib.Order.CompletePartialOrder
import Mathlib.Order.WellFounded
import ShaderLowering.Proofs.Threads.Endings
import ShaderLowering.Proofs.Threads.Events
import ShaderLowering.Proofs.Threads.Untangled

/-!
# No deadlock

Since waits run in no circle (`Board.Untangled`), two things hold of every machine at every moment of
every run (`deadlockFree_follow`).

A thread that follows a chain of owners comes to its end, because each link leaves fewer threads that
the rest of the chain can lead to (`linksLeft_step`).

And if no thread could take a step, the lock would be free, since who holds it is never held up; so each
thread that has not ended would be asleep on a slot under construction, and would wait on the owner of
that slot, who has not ended either (`waitsOn_of_stuck`).  On finitely many threads such waits would run
in a circle (`exists_step`).
-/

namespace ShaderLowering.Construction

open Relation (ReflTransGen TransGen)

/-- On a finite set, a relation without cycles does not lead on for ever. -/
theorem eq_empty_of_acyclic {α : Type} {r : α → α → Prop} {s : Set α} (hfinite : s.Finite)
    (hacyclic : ∀ x, ¬TransGen r x x) (hnext : ∀ x ∈ s, ∃ y ∈ s, r x y) : s = ∅ := by
  let beyond : s → s → Prop := fun x y => TransGen r y x
  have : Finite s := hfinite
  have : IsTrans s beyond := ⟨fun x y z hxy hyz => TransGen.trans hyz hxy⟩
  have : Std.Irrefl beyond := ⟨fun x => hacyclic x⟩
  have hwellFounded : WellFounded beyond := Finite.wellFounded_of_trans_of_irrefl beyond
  by_contra hne
  obtain ⟨x, hx⟩ := Set.nonempty_iff_ne_empty.mpr hne
  obtain ⟨last, -, hlast⟩ := hwellFounded.has_min Set.univ ⟨⟨x, hx⟩, trivial⟩
  obtain ⟨y, hy, hedge⟩ := hnext last last.2
  exact hlast ⟨y, hy⟩ trivial (.single hedge)

variable {I : Interface} {σ α : Type}

/-! ## Sleeping threads -/

namespace World

/-- Threads sleep on slots under construction only. -/
def Restful (w : World I σ) : Prop :=
  ∀ k cell, w.cells.get? k = some cell → cell.sleepers ≠ [] → cell.state = .building

variable {w w' : World I σ} {k : I.Key}

theorem Restful.of_cells (h : w.Restful) (hcells : w'.cells = w.cells) : w'.Restful := by
  rwa [Restful, hcells]

theorem Restful.modifyCell (h : w.Restful) {f : Cell (I.Value k) → Cell (I.Value k)}
    (hf : ∀ cell, w.cells.get? k = some cell → (f cell).sleepers ≠ [] → (f cell).state = .building) :
    (w.modifyCell k f).Restful := by
  intro k' cell hcell hsleepers
  by_cases hk : k' = k
  · subst hk
    rw [get?_modifyCell_self] at hcell
    obtain ⟨cell', hcell', rfl⟩ := Option.map_eq_some_iff.mp hcell
    exact hf cell' hcell' hsleepers
  · rw [get?_modifyCell_of_ne hk] at hcell
    exact h k' cell hcell hsleepers

theorem Restful.install (h : w.Restful) (t : ThreadId) (k : I.Key) : (w.install t k).Restful := by
  intro k' cell hcell hsleepers
  by_cases hk : k' = k
  · subst hk
    rw [World.install, Table.get?_set_self] at hcell
    obtain rfl := Option.some.inj hcell
    rfl
  · rw [World.install, Table.get?_set_of_ne hk] at hcell
    exact h k' cell hcell hsleepers

end World

namespace Thread

variable {recipes : Recipes I σ} {t : ThreadId} {w w' : World I σ} {goal : Goal I.Key}

theorem building_of_answer? {k : I.Key} {cell : Cell (I.Value k)} (hanswer : answer? w k = none)
    (hcell : w.cells.get? k = some cell) : cell.state = .building := by
  obtain ⟨owner, finished, state, sleepers⟩ := cell
  cases state with
  | building => rfl
  | ready v => simp [answer?, hcell] at hanswer
  | failed => simp [answer?, hcell] at hanswer

/-- No step lets a thread sleep on a slot that is settled. -/
theorem restful_of_stepsTo {thread thread' : Thread I α} (h : w.Restful)
    (hstep : thread.StepsTo recipes t w thread' w') : w'.Restful := by
  cases hstep with
  | act => exact h.of_cells rfl
  | peek => exact h
  | arrive => exact h
  | begins => exact h.install t _
  | finish =>
    exact h.modifyCell (f := fun cell => { cell with finished := true }) fun cell hcell => h _ cell hcell
  | wait hwait =>
    rcases hwait.cells with hcells | ⟨hopen, rfl⟩
    · exact h.of_cells hcells
    · exact h.modifyCell (f := fun cell => { cell with sleepers := t :: cell.sleepers })
        fun cell hcell _ => show cell.state = .building from building_of_answer? hopen hcell
  | leave => exact h.of_cells rfl
  | publish =>
    -- Settling wakes everyone: the new cell has no sleepers.
    exact h.modifyCell (f := fun cell =>
      { cell with state := endingState _, sleepers := [] }) fun _ _ hne => absurd rfl hne

/-- A thread that cannot take a step has ended, or finds the lock taken, or sleeps and has not been
woken; the remaining case does not arise in runs. -/
theorem cases_blocked {thread : Thread I α} (h : thread.step recipes t w = none) :
    thread.ending?.isSome ∨ (¬thread.stage.Chasing ∧ w.lock ≠ none) ∨
      (∃ k, thread.stage = .wait k .asleep ∧ ∀ cell, w.cells.get? k = some cell → t ∈ cell.sleepers) ∨
      thread.stage = .publish ∧ thread.keys = [] := by
  obtain ⟨goal, control, frames⟩ := thread
  cases control with
  | run task =>
    have hfinish : ∀ ending : Option (Result I (goal.Value I α)), task = ending.elim .panic .done →
        finish w goal ending frames = none →
        (⟨goal, .run task, frames⟩ : Thread I α).ending?.isSome := by
      intro ending htask hfinish
      cases frames with
      | base => subst htask; cases ending <;> rfl
      | enclosed k next rest => cases hfinish
    cases task with
    | done result => exact .inl (hfinish (some result) rfl h)
    | panic => exact .inl (hfinish none rfl h)
    | act action next => cases h
    | peek k next => cases h
    | request r next =>
      simp only [step, stepTask] at h
      split at h <;> cases h
  | wait k phase next =>
    have hwait : stepWait t w k next phase = none := Option.map_eq_none_iff.mp h
    cases phase with
    | inspect =>
      simp only [stepWait] at hwait
      split at hwait <;> cases hwait
    | enlist =>
      exact .inr (.inl ⟨by simp [stage], fun hlock => by simp [stepWait, hlock] at hwait⟩)
    | check =>
      simp only [stepWait] at hwait
      split at hwait
      · cases hwait
      · next hopen =>
        obtain ⟨s, hslot, -⟩ := World.isFinished_eq_false_iff.mp (Bool.not_eq_true _ ▸ hopen)
        rw [World.owner?_eq, hslot] at hwait
        cases hwait
    | chase owner =>
      simp only [stepWait] at hwait
      split at hwait
      · cases hwait
      · split at hwait
        · cases hwait
        · split at hwait
          · cases hwait
          · next hopen =>
            obtain ⟨s, hslot, -⟩ := World.isFinished_eq_false_iff.mp (Bool.not_eq_true _ ▸ hopen)
            rw [World.owner?_eq, hslot] at hwait
            cases hwait
    | await =>
      simp only [stepWait] at hwait
      split at hwait <;> cases hwait
    | asleep =>
      refine .inr (.inr (.inl ⟨k, rfl, fun cell hcell => ?_⟩))
      by_contra hwoken
      simp [stepWait, hcell, hwoken] at hwait
  | leave k result next =>
    exact .inr (.inl ⟨by simp [stage], fun hlock => by simp [step, hlock] at h⟩)
  | publish ending =>
    cases frames with
    | base => exact .inr (.inr (.inr ⟨rfl, rfl⟩))
    | enclosed k next rest => cases h

theorem keys_of_ending {thread : Thread I α} (h : thread.ending?.isSome) : thread.keys = [] := by
  obtain ⟨ending, hending⟩ := Option.isSome_iff_exists.mp h
  obtain rfl := eq_ended hending
  cases ending <;> rfl

theorem stage_of_ending {thread : Thread I α} (h : thread.ending?.isSome) : thread.stage = .run := by
  obtain ⟨ending, hending⟩ := Option.isSome_iff_exists.mp h
  obtain rfl := eq_ended hending
  cases ending <;> rfl

end Thread

/-! ## Machines -/

/-- What a run preserves: the board is coherent and untangled, and threads sleep on slots under
construction only. -/
structure Machine.Orderly (m : Machine I σ α) : Prop where
  coherent : m.board.Coherent
  untangled : m.board.Untangled
  restful : m.world.Restful

namespace Machine.Orderly

variable {recipes : Recipes I σ} {m m' : Machine I σ α} {t u : ThreadId}

theorem step (h : m.Orderly) (hstep : m.step recipes t = some m') : m'.Orderly := by
  have hmove := board_step hstep
  refine ⟨h.coherent.step hmove, h.untangled.step h.coherent hmove, ?_⟩
  obtain ⟨thread, thread', w, -, hnext, rfl⟩ := stepsTo_of_step hstep
  exact Thread.restful_of_stepsTo h.restful hnext

theorem start (tasks : List (Task I α)) (shared : σ) :
    (Machine.start tasks shared : Machine I σ α).Orderly := by
  have hstage := board_stage_start tasks shared
  refine ⟨coherent_start tasks shared, ⟨?_, ?_, ?_, ?_⟩, nofun⟩
  · intro t hcycle
    obtain ⟨u, ⟨k, s, hwaiting, -⟩, -⟩ := TransGen.head'_iff.mp hcycle
    cases hwaiting
  · intro t k o hchase
    rw [hstage] at hchase
    cases hchase
  · intro t k hwait
    rw [hstage] at hwait
    rcases hwait with hwait | hwait <;> cases hwait
  · intro t hpublish
    rw [hstage] at hpublish
    cases hpublish

theorem follow (h : m.Orderly) (recipes : Recipes I σ) (schedule : List ThreadId) :
    (m.follow recipes schedule).Orderly :=
  follow_preserves (fun _ _ _ hbefore hstep => hbefore.step hstep) h schedule

end Machine.Orderly

/-! ### Some thread can go on -/

namespace Machine

variable {m : Machine I σ α} {t : ThreadId}

theorem exists_thread_of_stage (hne : m.board.stage t ≠ .run) : ∃ thread, m.threads[t]? = some thread := by
  cases hthread : m.threads[t]? with
  | some thread => exact ⟨thread, rfl⟩
  | none => simp [board, hthread] at hne

theorem exists_thread_of_keys {k : I.Key} (hmem : k ∈ m.board.keys t) :
    ∃ thread, m.threads[t]? = some thread := by
  cases hthread : m.threads[t]? with
  | some thread => exact ⟨thread, rfl⟩
  | none => simp [board, hthread] at hmem

/-- A thread that follows a chain of waits can take a step. -/
theorem isSome_of_chasing (recipes : Recipes I σ) (hchasing : (m.board.stage t).Chasing) :
    (m.step recipes t).isSome := by
  have hne : m.board.stage t ≠ .run := by
    intro hrun
    simp [hrun] at hchasing
  obtain ⟨thread, hthread⟩ := exists_thread_of_stage hne
  rw [board_stage hthread] at hchasing hne
  cases hstep : thread.step recipes t m.world with
  | some next => simp [Machine.step, hthread, hstep]
  | none =>
    rcases Thread.cases_blocked hstep with hended | ⟨hidle, -⟩ | ⟨k, hasleep, -⟩ | ⟨hpublish, -⟩
    · exact absurd (Thread.stage_of_ending hended) hne
    · exact absurd hchasing hidle
    · simp [hasleep] at hchasing
    · simp [hpublish] at hchasing

/-- The threads of a machine that have not come to their end. -/
def unended (m : Machine I σ α) : Set ThreadId :=
  {t | ∃ thread, m.threads[t]? = some thread ∧ thread.ending?.isSome = false}

theorem finite_unended (m : Machine I σ α) : m.unended.Finite := by
  refine (Set.finite_lt_nat m.threads.length).subset ?_
  rintro t ⟨thread, hthread, -⟩
  exact (List.getElem?_eq_some_iff.mp hthread).1

theorem mem_unended_of_keys {k : I.Key} (hmem : k ∈ m.board.keys t) : t ∈ m.unended := by
  obtain ⟨thread, hthread⟩ := exists_thread_of_keys hmem
  refine ⟨thread, hthread, ?_⟩
  by_contra hended
  rw [board_keys hthread, Thread.keys_of_ending (eq_true_of_ne_false hended)] at hmem
  cases hmem

namespace Orderly

/-- Where no thread can take a step, threads that have not ended are asleep on slots under
construction. -/
theorem asleep_of_stuck (h : m.Orderly) {recipes : Recipes I σ}
    (hstuck : ∀ t, m.step recipes t = none) (ht : t ∈ m.unended) :
    ∃ k, m.board.stage t = .wait k .asleep ∧ m.world.state? k = some .building := by
  obtain ⟨thread, hthread, hunended⟩ := ht
  -- The lock is free: its holder is following a chain and could take a step.
  have hlock : m.world.lock = none := by
    by_contra hheld
    obtain ⟨u, hu⟩ := Option.ne_none_iff_exists'.mp hheld
    have hstep := isSome_of_chasing recipes ((h.coherent.locked u).mp hu)
    rw [hstuck u] at hstep
    cases hstep
  have hblocked : thread.step recipes t m.world = none := by
    have hnone := hstuck t
    rw [Machine.step, hthread] at hnone
    exact Option.map_eq_none_iff.mp hnone
  rcases Thread.cases_blocked hblocked with hended | ⟨-, hheld⟩ | ⟨k, hasleep, hsleepers⟩ |
    ⟨hpublish, hkeys⟩
  · rw [hunended] at hended
    cases hended
  · exact absurd hlock hheld
  · rw [← board_stage hthread] at hasleep
    obtain ⟨s, hs⟩ := Option.isSome_iff_exists.mp (h.coherent.known t k _ hasleep)
    obtain ⟨cell, hcell, -⟩ := Option.map_eq_some_iff.mp hs
    have hopen := h.restful k cell hcell (List.ne_nil_of_mem (hsleepers cell hcell))
    exact ⟨k, hasleep, by rw [World.state?, hcell, Option.map_some, hopen]⟩
  -- A thread that publishes is in a construction; the base frame cannot.
  · rw [← board_stage hthread] at hpublish
    rw [← board_keys hthread] at hkeys
    exact absurd hkeys (h.untangled.publishing t hpublish)

/-- Where no thread can take a step, each that has not ended waits on one that has not ended. -/
theorem waitsOn_of_stuck (h : m.Orderly) {recipes : Recipes I σ}
    (hstuck : ∀ t, m.step recipes t = none) (ht : t ∈ m.unended) :
    ∃ o ∈ m.unended, m.board.WaitsOn t o := by
  obtain ⟨k, hasleep, hopen⟩ := h.asleep_of_stuck hstuck ht
  obtain ⟨o, hkeys⟩ : ∃ o, k ∈ m.board.keys o := by
    obtain ⟨cell, hcell, hstate⟩ := Option.map_eq_some_iff.mp hopen
    have hslot : m.board.slot k = some cell.standing := Option.map_eq_some_iff.mpr ⟨cell, hcell, rfl⟩
    rcases h.coherent.built k _ hslot with hkeys | ⟨hclosed, -⟩
    · exact ⟨_, hkeys⟩
    · simp [Cell.standing, hstate] at hclosed
  -- The owner sleeps as well, so it has not raised the flag of its slot.
  have howner := mem_unended_of_keys hkeys
  obtain ⟨k', hasleep', -⟩ := h.asleep_of_stuck hstuck howner
  obtain ⟨s, hslot, hs, -, hflag⟩ := h.coherent.stacked o k hkeys
  have hunfinished : s.finished = false := by
    refine Bool.eq_false_iff.mpr fun hraised => ?_
    cases hasleep'.symm.trans (hflag.mp hraised).1
  refine ⟨o, howner, k, s, ?_, hslot, hunfinished, hs⟩
  exact (h.untangled.enlisted t k (.inr hasleep)).resolve_right
    (not_not_intro ⟨s, hslot, hunfinished⟩)

/-- If a thread has not come to its end, some thread can take a step. -/
theorem exists_step (h : m.Orderly) (recipes : Recipes I σ) (hover : m.isOver = false) :
    ∃ t, (m.step recipes t).isSome := by
  by_contra hnone
  have hstuck : ∀ t, m.step recipes t = none := fun t =>
    Option.not_isSome_iff_eq_none.mp fun hsome => hnone ⟨t, hsome⟩
  have hempty := eq_empty_of_acyclic m.finite_unended h.untangled.acyclic
    fun t ht => h.waitsOn_of_stuck hstuck ht
  obtain ⟨thread, hmem, hunended⟩ := List.all_eq_false.mp hover
  obtain ⟨t, hthread⟩ := List.mem_iff_getElem?.mp hmem
  have ht : t ∈ m.unended := ⟨thread, hthread, Bool.eq_false_iff.mpr hunended⟩
  rw [hempty] at ht
  exact ht

end Orderly

end Machine

/-! ### Chains of waits come to an end -/

namespace Machine

variable {recipes : Recipes I σ} {m m' : Machine I σ α} {t u o : ThreadId} {k : I.Key}

/-- The threads that a chain of waits leads to from a given one. -/
def ahead (m : Machine I σ α) (o : ThreadId) : Set ThreadId :=
  {u | u < m.threads.length ∧ ReflTransGen m.board.WaitsOn o u}

theorem finite_ahead (m : Machine I σ α) (o : ThreadId) : (m.ahead o).Finite :=
  (Set.finite_lt_nat m.threads.length).subset fun _ hu => hu.1

theorem ncard_ahead_le (m : Machine I σ α) (o : ThreadId) :
    (m.ahead o).ncard ≤ m.threads.length := by
  have hsubset : m.ahead o ⊆ ↑(Finset.range m.threads.length) := fun u hu => by simpa using hu.1
  calc (m.ahead o).ncard ≤ (↑(Finset.range m.threads.length) : Set ThreadId).ncard :=
        Set.ncard_le_ncard hsubset (Finset.finite_toSet _)
    _ = m.threads.length := by rw [Set.ncard_coe_finset, Finset.card_range]

/-- How many more steps a thread may follow a chain of waits. -/
noncomputable def linksLeft (m : Machine I σ α) (t : ThreadId) : Nat :=
  match m.board.stage t with
  | .wait _ .check => m.threads.length + 1
  | .wait _ (.chase o) => (m.ahead o).ncard
  | _ => 0

theorem linksLeft_of_check (hstage : m.board.stage t = .wait k .check) :
    m.linksLeft t = m.threads.length + 1 := by
  rw [linksLeft, hstage]

theorem linksLeft_of_chase (hstage : m.board.stage t = .wait k (.chase o)) :
    m.linksLeft t = (m.ahead o).ncard := by
  rw [linksLeft, hstage]

theorem ahead_subset (hstep : m.step recipes u = some m')
    (hwaits : ∀ x y, m'.board.WaitsOn x y → m.board.WaitsOn x y) (o : ThreadId) :
    m'.ahead o ⊆ m.ahead o := by
  rintro v ⟨hlt, hpath⟩
  rw [length_threads_step hstep] at hlt
  exact ⟨hlt, ReflTransGen.mono hwaits _ _ hpath⟩

/-- Behind a link of a chain there are fewer threads ahead. -/
theorem ahead_ssubset (h : m.Orderly) {o' : ThreadId} (hedge : m.board.WaitsOn o o') :
    m.ahead o' ⊂ m.ahead o := by
  have hlt : o < m.threads.length := by
    obtain ⟨k, s, hwaiting, -⟩ := hedge
    have hne : m.board.stage o ≠ .run := by
      rcases h.coherent.recorded o k hwaiting with hstage | hstage | hstage <;> rw [hstage] <;> nofun
    obtain ⟨thread, hthread⟩ := exists_thread_of_stage hne
    exact (List.getElem?_eq_some_iff.mp hthread).1
  have hsubset : m.ahead o' ⊆ m.ahead o := fun v hv => ⟨hv.1, .head hedge hv.2⟩
  refine (Set.ssubset_iff_of_subset hsubset).mpr ⟨o, ⟨hlt, .refl⟩, fun ho => ?_⟩
  exact h.untangled.acyclic o (.head' hedge ho.2)

/-- As long as a thread follows a chain, each of its steps leaves fewer links, and no step of another
thread adds any. -/
theorem linksLeft_step (h : m.Orderly) (hstep : m.step recipes u = some m')
    (hbefore : (m.board.stage t).Chasing) (hafter : (m'.board.stage t).Chasing) :
    [u].count t + m'.linksLeft t ≤ m.linksLeft t := by
  have hmove := board_step hstep
  have hlength := length_threads_step hstep
  by_cases hne : t = u
  -- Another thread cannot add waits while this one holds the tracker's lock.
  case neg =>
    have hsame := hmove.stage_of_ne hne
    have hwaits : ∀ x y, m'.board.WaitsOn x y → m.board.WaitsOn x y := fun x y =>
      Board.waitsOn_of_step_of_locked h.coherent hmove hne hbefore
    rw [List.count_singleton, if_neg (by simpa using Ne.symm hne), Nat.zero_add]
    obtain ⟨k, hstage | ⟨o, hstage⟩⟩ := hbefore
    · rw [linksLeft_of_check hstage, linksLeft_of_check (hsame.trans hstage), hlength]
    · rw [linksLeft_of_chase hstage, linksLeft_of_chase (hsame.trans hstage)]
      exact Set.ncard_le_ncard (ahead_subset hstep hwaits o) (m.finite_ahead o)
  subst hne
  rw [List.count_singleton_self]
  obtain ⟨k', hstage' | ⟨o', hstage'⟩⟩ := hafter
  · exact absurd hstage' (Board.stage_ne_check hmove hbefore)
  rw [linksLeft_of_chase hstage']
  -- The thread itself moves one link on, and what is behind it is not ahead of it any more.
  obtain ⟨k, hstage | ⟨o, hstage⟩⟩ := hbefore
  · have hle := m'.ncard_ahead_le o'
    rw [linksLeft_of_check hstage]
    omega
  · obtain ⟨hedge, hwaits⟩ := Board.waitsOn_of_follow hmove hstage hstage'
    have hfewer := Set.ncard_lt_ncard
      ((ahead_subset hstep hwaits o').trans_ssubset (ahead_ssubset h hedge)) (m.finite_ahead o)
    rw [linksLeft_of_chase hstage]
    omega

/-- A thread takes at most one step per link, and one to look at the slot, before it has come to the end
of a chain of waits. -/
theorem count_le_of_chasing (h : m.Orderly) (recipes : Recipes I σ) (schedule : List ThreadId)
    (hchasing : ∀ before, before <+: schedule →
      ((m.follow recipes before).board.stage t).Chasing) :
    schedule.count t ≤ m.linksLeft t := by
  induction schedule generalizing m with
  | nil => exact Nat.zero_le _
  | cons u schedule ih =>
    have hnow : (m.board.stage t).Chasing := hchasing [] (List.nil_prefix ..)
    have hrest : ∀ before, before <+: schedule →
        ((((m.step recipes u).getD m).follow recipes before).board.stage t).Chasing :=
      fun before hbefore => hchasing (u :: before) (List.cons_prefix_cons.mpr ⟨rfl, hbefore⟩)
    rw [← List.singleton_append, List.count_append]
    cases hstep : m.step recipes u with
    | none =>
      have hne : u ≠ t := by
        rintro rfl
        have hsome := isSome_of_chasing recipes hnow
        rw [hstep] at hsome
        cases hsome
      rw [hstep] at hrest
      rw [List.count_singleton, if_neg (by simpa using hne), Nat.zero_add]
      exact ih h hrest
    | some m' =>
      rw [hstep] at hrest
      have hnext := linksLeft_step h hstep hnow (hrest [] (List.nil_prefix ..))
      have hlater := ih (h.step hstep) hrest
      omega

theorem linksLeft_le (m : Machine I σ α) (t : ThreadId) :
    m.linksLeft t ≤ m.threads.length + 1 := by
  unfold linksLeft
  split
  · exact Nat.le_refl _
  · exact (m.ncard_ahead_le _).trans (Nat.le_succ _)
  · exact Nat.zero_le _

end Machine

/-! ### Every reachable state -/

/-- A machine is not deadlocked, and does not come to be. -/
structure DeadlockFree (recipes : Recipes I σ) (m : Machine I σ α) : Prop where
  /-- No thread waits on itself, directly or through others. -/
  acyclic : ∀ t, ¬TransGen m.board.WaitsOn t t
  /-- A thread that follows a chain of waits is not held up. -/
  unhindered : ∀ t, (m.board.stage t).Chasing → (m.step recipes t).isSome
  /-- Before it has taken two steps more than there are threads, it has come to the end of the chain. -/
  ends : ∀ t schedule, m.threads.length + 1 < schedule.count t →
    ∃ before, before <+: schedule ∧ ¬((m.follow recipes before).board.stage t).Chasing
  /-- As long as a thread has not come to its end, some thread can take a step. -/
  progress : m.isOver = false → ∃ t, (m.step recipes t).isSome

/-- No machine is ever deadlocked, whatever its threads run and in whatever order they take their
steps. -/
theorem deadlockFree_follow (recipes : Recipes I σ) (tasks : List (Task I α)) (shared : σ)
    (schedule : List ThreadId) :
    DeadlockFree recipes ((Machine.start tasks shared).follow recipes schedule) := by
  have h := (Machine.Orderly.start tasks shared).follow recipes schedule
  refine ⟨h.untangled.acyclic, fun t => Machine.isSome_of_chasing recipes, ?_, h.exists_step recipes⟩
  intro t later hcount
  by_contra hnever
  push Not at hnever
  have hle := Machine.count_le_of_chasing h recipes later hnever
  have hbound := Machine.linksLeft_le ((Machine.start tasks shared).follow recipes schedule) t
  omega

end ShaderLowering.Construction
