import ShaderLowering.Construction.Script
import ShaderLowering.Proofs.Threads.OneThread
import ShaderLowering.Proofs.Threads.Agreement
import ShaderLowering.Proofs.Threads.Progress

/-!
# One thread alone

A thread that shares its slots with nobody never waits.  A request for a key that was never requested
before runs its factory; any other is answered on the spot, by the state of the slot, and if the key is
under construction the answer is a cycle, since only the thread itself can be constructing it
(`Machine.own_of_building`).  This is so in whatever way its factories end and whatever tasks it runs one
after another, also past a panic, which takes with it all the constructions that enclose it.

`Uses` is what such a thread does, `Alone` is what its steps preserve, and `Solitary` is all that can be
read off it (`solitary_of_uses`).
-/

namespace ShaderLowering.Construction

variable {I : Interface} {σ α : Type}

/-! ## What one thread does -/

/-- One thread uses the slots of a machine: it takes steps, and when its task has come to its end, with a
result or by a panic, it may go on with another task and another shared state. -/
inductive Uses (recipes : Recipes I σ) (m : Machine I σ α) : List (Event I) → Machine I σ α → Prop
  | refl : Uses recipes m [] m
  | step {log : List (Event I)} {m' m'' : Machine I σ α} (h : Uses recipes m log m')
      (hstep : m'.step recipes 0 = some m'') : Uses recipes m (log ++ (m'.event? 0).toList) m''
  | again {log : List (Event I)} {m' : Machine I σ α} (h : Uses recipes m log m')
      (hover : m'.isOver = true) (task : Task I α) (shared : σ) :
      Uses recipes m log ⟨[.start task], { m'.world with shared }⟩

/-- The key that an event shows a request for. -/
def Event.requested? : Event I → Option I.Key
  | .begins _ r => some (I.key r)
  | .answers _ k _ => some k
  | .ends _ _ _ => none

/-- The keys that have been requested, once for each request. -/
def requestedIn (log : List (Event I)) : List I.Key :=
  log.filterMap Event.requested?

/-- What holds at every moment while one thread uses slots. -/
structure Solitary (recipes : Recipes I σ) (log : List (Event I)) (m : Machine I σ α) : Prop where
  /-- No request blocks: as long as its task has not come to its end, the thread can take a step. -/
  unblocked : m.isOver = false → (m.step recipes 0).isSome
  /-- Nor does the thread ever go to sleep. -/
  awake : ∀ k, m.board.stage 0 ≠ .wait k .asleep
  /-- A request for a key that was never requested before runs its factory. -/
  first : ∀ goal r (next : Result I (I.Value (I.key r)) → Task I (goal.Value I α)) frames,
    m.threads = [⟨goal, .run (.request r next), frames⟩] → I.key r ∉ requestedIn log →
    Runs recipes ⟨goal, .run (.request r next), frames⟩ m.world [.begins 0 r]
      ⟨.construct (I.key r), .run (recipes.factory r), .enclosed (I.key r) next frames⟩
      (m.world.install 0 (I.key r))
  /-- Any other request is answered by the state of the slot, and nothing else happens. -/
  repeated : ∀ goal r (next : Result I (I.Value (I.key r)) → Task I (goal.Value I α)) frames,
    m.threads = [⟨goal, .run (.request r next), frames⟩] → I.key r ∈ requestedIn log →
    ∃ state, m.world.state? (I.key r) = some state ∧
      Runs recipes ⟨goal, .run (.request r next), frames⟩ m.world
        [.answers 0 (I.key r) (state.reply (I.key r))]
        ⟨goal, .run (next (state.reply (I.key r))), frames⟩ m.world
  /-- What a factory ends with, its request returns, or panics in turn; and the slot is settled with it. -/
  returned : ∀ goal k (next : Result I (I.Value k) → Task I (goal.Value I α)) rest
    (ending : Option (Result I (I.Value k))),
    m.threads = [⟨.construct k, .run (ending.elim .panic .done), .enclosed k next rest⟩] →
    ∃ w, Runs recipes ⟨.construct k, .run (ending.elim .panic .done), .enclosed k next rest⟩ m.world
        [.ends 0 k ending] ⟨goal, .run (ending.elim .panic next), rest⟩ w ∧
      w.state? k = some (Thread.endingState ending)
  /-- A look at a key finds a value exactly if the key is ready. -/
  looked : ∀ goal k (next : Option (I.Value k) → Task I (goal.Value I α)) frames,
    m.threads = [⟨goal, .run (.peek k next), frames⟩] →
    ∃ value, Runs recipes ⟨goal, .run (.peek k next), frames⟩ m.world []
        ⟨goal, .run (next value), frames⟩ m.world ∧
      ∀ v, value = some v ↔ m.world.state? k = some (.ready v)
  /-- The keys under construction are those whose factories the thread is running. -/
  building : ∀ k, m.world.state? k = some .building ↔ k ∈ m.board.keys 0
  /-- Outside all factories, no key is under construction. -/
  settled : ∀ task frames, m.threads = [⟨.top, .run task, frames⟩] →
    ∀ k, m.world.state? k ≠ some .building
  /-- A key is ready exactly if its factory has returned a value. -/
  ready : ∀ k v, m.world.state? k = some (.ready v) ↔ .ends 0 k (some (.ok v)) ∈ log
  /-- A key has failed exactly if its factory has come to another end. -/
  failed : ∀ k, m.world.state? k = some .failed ↔
    ∃ ending, .ends 0 k ending ∈ log ∧ ∀ v, ending ≠ some (.ok v)
  /-- The factory of a key begins at most once and ends at most once. -/
  fate : ∀ k, Fate log m.world k
  /-- Settled slots never change, whatever the thread goes on to do. -/
  lasting : ∀ k state, m.world.state? k = some state → state ≠ .building →
    ∀ later m', Uses recipes m later m' → m'.world.state? k = some state
  /-- There are as many slots as distinct keys have been requested. -/
  size : m.world.cells.size = (requestedIn log).dedup.length
  /-- Where requests are resolved one after another, a task comes to an end that the thread comes to as well
  when it goes on with this task, and to a state that shows the same slots. -/
  executed : ∀ (s : State I σ) (task : Task I α) depth outcome s' ending, m.isOver = true →
    Mirrors s { m.world with shared := s.shared } → task.execute recipes depth s = (outcome, s') →
    outcome.ending? = some ending →
    ∃ later w, Uses recipes m later ⟨[.ended ending], w⟩ ∧ Mirrors s' w

theorem Uses.follow {recipes : Recipes I σ} {log : List (Event I)} {m m' : Machine I σ α}
    (h : Uses recipes m log m') (n : Nat) :
    Uses recipes m (log ++ m'.log recipes (List.replicate n 0)) (m'.follow recipes (List.replicate n 0)) := by
  induction n generalizing log m' with
  | zero => rwa [List.replicate_zero, Machine.log, List.append_nil]
  | succ n ih =>
    rw [List.replicate_succ, Machine.follow, Machine.log]
    cases hnext : m'.step recipes 0 with
    | none => exact ih h
    | some m'' =>
      rw [← List.append_assoc]
      exact ih (h.step hnext)

/-! ## What a single thread preserves -/

/-- A single thread that waits has just asked for a slot, or it is about to find out that it waits for
itself. -/
def Control.Quiet (w : World I σ) {goal : Goal I.Key} : Control I α goal → Prop
  | .run _ | .publish _ => True
  | .wait _ .inspect _ => True
  | .wait k .enlist _ | .wait k .check _ => w.state? k = some .building
  | .wait k (.chase owner) _ => owner = 0 ∧ w.state? k = some .building
  | .wait _ .await _ | .wait _ .asleep _ | .leave _ _ _ => False

/-- What is preserved while one thread uses slots. -/
structure Alone (log : List (Event I)) (m : Machine I σ α) : Prop where
  recorded : Recorded log m
  orderly : m.Orderly
  single : ∃ thread, m.threads = [thread] ∧ thread.control.Quiet m.world
  requested : ∀ k, (m.world.state? k).isSome ↔ k ∈ requestedIn log
  ends : ∀ t k ending, .ends t k ending ∈ log → t = 0

namespace Machine

variable {recipes : Recipes I σ} {thread thread' : Thread I α} {w w' : World I σ} {m m' : Machine I σ α}
  {t : ThreadId} {k : I.Key}

theorem single_of_step (hstep : (⟨[thread], w⟩ : Machine I σ α).step recipes 0 = some m') :
    ∃ thread' w', thread.StepsTo recipes 0 w thread' w' ∧ m' = ⟨[thread'], w'⟩ := by
  obtain ⟨thread₀, thread', w', hthread, hnext, rfl⟩ := stepsTo_of_step hstep
  obtain rfl := Option.some.inj hthread
  exact ⟨thread', w', hnext, rfl⟩

/-- A key under construction is on the stack of the only thread. -/
theorem mem_keys_of_building (hcoherent : (⟨[thread], w⟩ : Machine I σ α).board.Coherent)
    (hopen : w.state? k = some .building) : k ∈ thread.keys := by
  obtain ⟨cell, hcell, hstate⟩ := Option.map_eq_some_iff.mp hopen
  have hslot : (⟨[thread], w⟩ : Machine I σ α).board.slot k = some cell.standing :=
    Option.map_eq_some_iff.mpr ⟨cell, hcell, rfl⟩
  rcases hcoherent.built k _ hslot with hkeys | ⟨hclosed, -⟩
  · obtain ⟨thread', hthread⟩ := exists_thread_of_keys hkeys
    have howner : cell.standing.owner = 0 := by
      have hlt := (List.getElem?_eq_some_iff.mp hthread).1
      simpa using hlt
    rw [howner] at hkeys
    exact hkeys
  · simp [Cell.standing, hstate] at hclosed

theorem isSome_slot_iff : (m.board.slot k).isSome ↔ (m.world.state? k).isSome := by
  show ((m.world.cells.get? k).map _).isSome ↔ ((m.world.cells.get? k).map _).isSome
  rw [Option.isSome_map, Option.isSome_map]

/-- A request that is answered finds a slot. -/
theorem isSome_of_answers (hcoherent : m.board.Coherent) (hstep : m.step recipes t = some m')
    {u : ThreadId} {result : Result I (I.Value k)} (hevent : m.event? t = some (.answers u k result)) :
    (m.world.state? k).isSome := by
  obtain ⟨thread, thread', w, hthread, hmove, -⟩ := move_of_step hstep
  rw [hevent] at hmove
  rw [← isSome_slot_iff]
  cases hmove with
  | answers hpending =>
    have hstage := board_stage hthread
    rcases hpending with ⟨phase, rfl⟩ | ⟨result, rfl⟩
    · exact hcoherent.known t k phase hstage
    · obtain ⟨s, hs, -⟩ := hcoherent.left t k hstage
      rw [hs]
      rfl

/-- What a single thread that is not publishing has under construction is its own and goes on. -/
theorem own_of_building (hcoherent : (⟨[thread], w⟩ : Machine I σ α).board.Coherent)
    (hstage : thread.stage ≠ .publish) (hopen : w.state? k = some .building) :
    w.isFinished k = false ∧ w.owner? k = some 0 := by
  obtain ⟨s, hslot, howner, -, hflag⟩ := hcoherent.stacked 0 k (mem_keys_of_building hcoherent hopen)
  have hslot : w.standings k = some s := hslot
  refine ⟨World.isFinished_eq_false_iff.mpr ⟨s, hslot, ?_⟩, by rw [World.owner?_eq, hslot, ← howner]; rfl⟩
  exact Bool.eq_false_iff.mpr fun hraised => hstage (hflag.mp hraised).1

/-- A single thread that does not follow a chain of waits finds the lock free. -/
theorem lock_eq_none (hcoherent : (⟨[thread], w⟩ : Machine I σ α).board.Coherent)
    (hidle : ¬thread.stage.Chasing) : w.lock = none := by
  by_contra hheld
  obtain ⟨u, hu⟩ := Option.ne_none_iff_exists'.mp hheld
  have hchasing := (hcoherent.locked u).mp hu
  have hne : (⟨[thread], w⟩ : Machine I σ α).board.stage u ≠ .run := by
    intro hrun
    simp [hrun] at hchasing
  obtain ⟨thread', hthread⟩ := exists_thread_of_stage hne
  obtain rfl : u = 0 := by
    have hlt := (List.getElem?_eq_some_iff.mp hthread).1
    simpa using hlt
  exact hidle hchasing

/-- A single thread stays so that it waits for no other. -/
theorem quiet_step (hcoherent : (⟨[thread], w⟩ : Machine I σ α).board.Coherent)
    (hquiet : thread.control.Quiet w) (hstep : thread.StepsTo recipes 0 w thread' w') :
    thread'.control.Quiet w' := by
  cases hstep with
  | wait hwait =>
    cases hwait with
    | queue hopen =>
      obtain ⟨s, hs⟩ := Option.isSome_iff_exists.mp (hcoherent.known 0 _ .inspect rfl)
      obtain ⟨cell, hcell, -⟩ := Option.map_eq_some_iff.mp hs
      show w.state? _ = some .building
      rw [World.state?, hcell, Option.map_some, Thread.building_of_answer? hopen hcell]
    | enter => exact hquiet
    -- A slot under construction is the thread's own, so the chase ends where it begins.
    | skip hdone =>
      obtain ⟨hflag, -⟩ := own_of_building hcoherent (fun hpublish => by cases hpublish) hquiet
      rw [hflag] at hdone
      cases hdone
    | chase _ howner =>
      obtain ⟨-, hself⟩ := own_of_building hcoherent (fun hpublish => by cases hpublish) hquiet
      exact ⟨Option.some.inj (howner.symm.trans hself), hquiet⟩
    | commit hother => exact absurd hquiet.1 hother
    | follow hother => exact absurd hquiet.1 hother
    | wake => exact hquiet.elim
    | doze => exact hquiet.elim
    | stir => exact hquiet.elim
    | answer => trivial
    | refuse => trivial
  | _ => trivial

end Machine

namespace Alone

variable {recipes : Recipes I σ} {log : List (Event I)} {m m' : Machine I σ α}

theorem start (task : Task I α) (shared : σ) : Alone [] (Machine.start [task] shared) where
  recorded := .start [task] shared
  orderly := .start [task] shared
  single := ⟨.start task, rfl, trivial⟩
  requested k := by simp [Machine.start, World.start, World.state?, requestedIn]
  ends := nofun

/-- The event of a step shows a request for the key that it gives a slot to, and for no other key without
a slot. -/
theorem requested_step (h : Alone log m) (hstep : m.step recipes 0 = some m') (k : I.Key) :
    (m'.world.state? k).isSome ↔ k ∈ requestedIn (log ++ (m.event? 0).toList) := by
  have happend : requestedIn (log ++ (m.event? 0).toList) =
      requestedIn log ++ ((m.event? 0).bind Event.requested?).toList := by
    rw [requestedIn, List.filterMap_append, ← requestedIn]
    cases m.event? 0 with
    | none => rfl
    | some e => cases e <;> rfl
  rw [happend, List.mem_append, ← h.requested k]
  obtain ⟨thread, thread', w, hthread, hmove, hm'⟩ := Machine.move_of_step hstep
  rw [hm']
  rcases hmove.cases_slots with ⟨hkeep, hsilent⟩ | ⟨r, hevent, hfree, rfl⟩ | ⟨k', ending, hevent, hmem, rfl⟩
  · rw [(hkeep k).1]
    refine ⟨.inl, fun hsome => hsome.elim id fun hrequested => ?_⟩
    obtain ⟨e, hevent, he⟩ := Option.bind_eq_some_iff.mp (Option.mem_toList.mp hrequested)
    cases e with
    | begins t r => exact absurd (Option.some.inj he) (hsilent _ hevent k)
    | ends t k' ending => cases he
    | answers t k' result =>
      obtain rfl := Option.some.inj he
      exact Machine.isSome_of_answers h.recorded.coherent hstep hevent
  · rw [hevent]
    by_cases hk : k = I.key r
    · subst hk
      simp [World.state?_install, Event.requested?]
    · simp [World.state?_install_of_ne hk, Event.requested?, hk]
  · rw [hevent]
    by_cases hk : k = k'
    · subst hk
      rw [← Machine.board_keys hthread] at hmem
      have hopen := Discipline.building_of_mem_keys h.recorded.coherent hmem
      simp [World.state?_settle _ (by rw [hopen]; rfl), hopen, Event.requested?]
    · simp [World.state?_settle_of_ne hk, Event.requested?]

theorem step (h : Alone log m) (hstep : m.step recipes 0 = some m') :
    Alone (log ++ (m.event? 0).toList) m' := by
  refine ⟨h.recorded.step hstep, h.orderly.step hstep, ?_, h.requested_step hstep,
    fun t k ending hmem => ?_⟩
  · obtain ⟨threads, w⟩ := m
    obtain ⟨thread, rfl, hquiet⟩ := h.single
    obtain ⟨thread', w', hnext, rfl⟩ := Machine.single_of_step hstep
    exact ⟨thread', rfl, Machine.quiet_step h.recorded.coherent hquiet hnext⟩
  · rcases List.mem_append.mp hmem with hold | hnew
    · exact h.ends t k ending hold
    · obtain ⟨thread, thread', w, hthread, hmove, -⟩ := Machine.move_of_step hstep
      rw [Option.mem_toList.mp hnew] at hmove
      cases hmove
      rfl

/-- A thread that goes on with another task finds everything as it has left it. -/
theorem again (h : Alone log m) (hover : m.isOver = true) (task : Task I α) (shared : σ) :
    Alone log ⟨[.start task], { m.world with shared }⟩ := by
  obtain ⟨threads, w⟩ := m
  obtain ⟨thread, rfl, -⟩ := h.single
  have hended : thread.ending?.isSome := by simpa [Machine.isOver] using hover
  -- A thread that has ended looks on the board like one that starts.
  have hboard : (⟨[.start task], { w with shared }⟩ : Machine I σ α).board =
      (⟨[thread], w⟩ : Machine I σ α).board := by
    have hkeys : (Thread.start task).keys = thread.keys := (Thread.keys_of_ending hended).symm
    have hstage : (Thread.start task).stage = thread.stage := (Thread.stage_of_ending hended).symm
    unfold Machine.board
    congr 1
    · funext t
      cases t <;> simp [hkeys]
    · funext t
      cases t <;> simp [hstage]
  have hfate : ∀ k, Fate log ({ w with shared } : World I σ) k := fun k => by
    have hkept : Fate (log ++ (none : Option (Event I)).toList) ({ w with shared } : World I σ) k :=
      (h.recorded.fate k).keep (fun e he => absurd he (Option.not_mem_none e)) rfl rfl
    rwa [Option.toList_none, List.append_nil] at hkept
  refine ⟨⟨hboard ▸ h.recorded.coherent, hfate, ?_⟩,
    ⟨hboard ▸ h.orderly.coherent, hboard ▸ h.orderly.untangled, h.orderly.restful⟩,
    ⟨.start task, rfl, trivial⟩, h.requested, h.ends⟩
  intro t goal k result next frames hthread
  obtain rfl : t = 0 := by
    have hlt := (List.getElem?_eq_some_iff.mp hthread).1
    simpa using hlt
  have hcontrol := congrArg Thread.stage (Option.some.inj hthread)
  cases hcontrol

theorem of_uses {log' : List (Event I)} (h : Alone log m) (hused : Uses recipes m log' m') :
    Alone (log ++ log') m' := by
  induction hused with
  | refl => rwa [List.append_nil]
  | step _ hstep ih =>
    rw [← List.append_assoc]
    exact ih.step hstep
  | again _ hover task shared ih => exact ih.again hover task shared

/-- A settled slot stays as it is. -/
theorem state?_of_uses (h : Alone log m) {later : List (Event I)} (hused : Uses recipes m later m')
    {k : I.Key} {state : SlotState (I.Value k)} (hslot : m.world.state? k = some state)
    (hsettled : state ≠ .building) : m'.world.state? k = some state := by
  induction hused with
  | refl => exact hslot
  | step hused hstep ih => exact Machine.state?_step (h.of_uses hused).recorded.coherent hstep ih hsettled
  | again _ _ _ _ ih => exact ih

/-! ### What a single thread can rely on -/

/-- A request for a key that has a slot is answered by the slot. -/
theorem repeated (h : Alone log m) {goal : Goal I.Key} {r : I.Request}
    {next : Result I (I.Value (I.key r)) → Task I (goal.Value I α)} {frames : Frames I α goal}
    (hthread : m.threads = [⟨goal, .run (.request r next), frames⟩])
    {state : SlotState (I.Value (I.key r))} (hslot : m.world.state? (I.key r) = some state) :
    Runs recipes ⟨goal, .run (.request r next), frames⟩ m.world
      [.answers 0 (I.key r) (state.reply (I.key r))]
      ⟨goal, .run (next (state.reply (I.key r))), frames⟩ m.world := by
  obtain ⟨threads, w⟩ := m
  obtain rfl : threads = _ := hthread
  refine .of_slot hslot fun hopen => ?_
  subst hopen
  obtain ⟨hflag, howner⟩ := Machine.own_of_building h.recorded.coherent nofun hslot
  exact ⟨hflag, howner, Machine.lock_eq_none h.recorded.coherent (by simp [Thread.stage])⟩

end Alone

namespace Fate

variable {log : List (Event I)} {w : World I σ} {k : I.Key}

/-- A construction that has ended has left its slot in the state that it ended with. -/
theorem state?_of_ends (h : Fate log w k) {t : ThreadId} {ending : Option (Result I (I.Value k))}
    (hends : .ends t k ending ∈ log) : w.state? k = some (Thread.endingState ending) := by
  have hmem : .ends t k ending ∈ constructionsOf k log :=
    List.mem_filter.mpr ⟨hends, decide_eq_true (show Event.Builds k (.ends t k ending) from rfl)⟩
  cases h with
  | free _ hlog => rw [hlog] at hmem; cases hmem
  | underway _ _ _ hlog =>
    rw [hlog, List.mem_singleton] at hmem
    cases hmem
  | settled _ hslot hlog =>
    rw [hlog] at hmem
    rcases List.mem_cons.mp hmem with heq | hmem
    · cases heq
    · cases List.mem_singleton.mp hmem
      exact hslot

/-- A settled slot is in the state that its construction has ended with. -/
theorem exists_ends (h : Fate log w k) {state : SlotState (I.Value k)} (hslot : w.state? k = some state)
    (hsettled : state ≠ .building) :
    ∃ t ending, .ends t k ending ∈ log ∧ state = Thread.endingState ending := by
  cases h with
  | free hfree => rw [hfree] at hslot; cases hslot
  | underway _ hopen =>
    rw [hopen] at hslot
    exact absurd (Option.some.inj hslot).symm hsettled
  | @settled t r ending _ hslot' hlog =>
    have hmem : .ends t k ending ∈ constructionsOf k log := by rw [hlog]; simp
    exact ⟨t, ending, List.mem_of_mem_filter hmem, Option.some.inj (hslot.symm.trans hslot')⟩

end Fate

theorem Thread.endingState_eq_ready_iff {β : Type} {ending : Option (Result I β)} {v : β} :
    Thread.endingState ending = .ready v ↔ ending = some (.ok v) := by
  rcases ending with _ | e | v' <;> simp [Thread.endingState, SlotState.ofResult]

theorem Thread.endingState_eq_failed_iff {β : Type} {ending : Option (Result I β)} :
    Thread.endingState ending = .failed ↔ ∀ v, ending ≠ some (.ok v) := by
  rcases ending with _ | e | v' <;> simp [Thread.endingState, SlotState.ofResult]

namespace Alone

variable {recipes : Recipes I σ} {log : List (Event I)} {m m' : Machine I σ α} {k : I.Key}

theorem ready_iff (h : Alone log m) (k : I.Key) (v : I.Value k) :
    m.world.state? k = some (.ready v) ↔ .ends 0 k (some (.ok v)) ∈ log := by
  refine ⟨fun hslot => ?_, fun hends => (h.recorded.fate k).state?_of_ends hends⟩
  obtain ⟨t, ending, hends, hending⟩ := (h.recorded.fate k).exists_ends hslot nofun
  obtain rfl := h.ends t k ending hends
  rwa [Thread.endingState_eq_ready_iff.mp hending.symm] at hends

theorem failed_iff (h : Alone log m) (k : I.Key) :
    m.world.state? k = some .failed ↔
      ∃ ending, .ends 0 k ending ∈ log ∧ ∀ v, ending ≠ some (.ok v) := by
  constructor
  · intro hslot
    obtain ⟨t, ending, hends, hending⟩ := (h.recorded.fate k).exists_ends hslot nofun
    obtain rfl := h.ends t k ending hends
    exact ⟨ending, hends, Thread.endingState_eq_failed_iff.mp hending.symm⟩
  · rintro ⟨ending, hends, hfailed⟩
    rw [(h.recorded.fate k).state?_of_ends hends, Thread.endingState_eq_failed_iff.mpr hfailed]

theorem size_eq (h : Alone log m) : m.world.cells.size = (requestedIn log).dedup.length := by
  have hkeys : m.world.cells.keys.Perm (requestedIn log).dedup := by
    refine (List.perm_ext_iff_of_nodup m.world.cells.nodup (List.nodup_dedup _)).mpr fun k => ?_
    show k ∈ m.world.cells.keys ↔ _
    rw [List.mem_dedup, ← h.requested k, Table.mem_keys_iff, World.state?, Option.isSome_map]
  rw [← hkeys.length_eq, Table.keys, List.length_map, Table.size]

/-- A factory that has come to its end settles its slot, and the request for it goes on. -/
theorem returned (h : Alone log m) {goal : Goal I.Key} {next : Result I (I.Value k) → Task I (goal.Value I α)}
    {rest : Frames I α goal} {ending : Option (Result I (I.Value k))}
    (hthread : m.threads = [⟨.construct k, .run (ending.elim .panic .done), .enclosed k next rest⟩]) :
    ∃ w, Runs recipes ⟨.construct k, .run (ending.elim .panic .done), .enclosed k next rest⟩ m.world
        [.ends 0 k ending] ⟨goal, .run (ending.elim .panic next), rest⟩ w ∧
      w.state? k = some (Thread.endingState ending) := by
  have hopen : m.world.state? k = some .building := by
    refine Discipline.building_of_mem_keys (t := 0) h.recorded.coherent ?_
    simp [Machine.board, hthread, Thread.keys, Frames.keys]
  -- Two steps: the flag is raised, and then the slot is settled and everyone woken.
  have hfinish : (⟨.construct k, .run (ending.elim .panic .done), .enclosed k next rest⟩ : Thread I α).step
      recipes 0 m.world =
        some (⟨.construct k, .publish ending, .enclosed k next rest⟩, m.world.finish k) := by
    cases ending <;> rfl
  have hpublish : (⟨.construct k, .publish ending, .enclosed k next rest⟩ : Thread I α).step
      recipes 0 (m.world.finish k) = some (⟨goal, .run (ending.elim .panic next), rest⟩,
        (m.world.finish k).settle k (Thread.endingState ending)) := by
    cases ending <;> rfl
  have hsilent : (Control.run (ending.elim .panic .done) : Control I α (.construct k)).event? 0
      m.world = none := by
    cases ending <;> rfl
  refine ⟨_, .step hfinish hsilent (.step hpublish rfl (.refl _ _)), ?_⟩
  exact World.state?_settle _ (by rw [World.state?_finish, hopen]; rfl)

/-- What is resolved one after another, a thread comes to that goes on with it. -/
theorem executed (hover : m.isOver = true) {s s' : State I σ}
    (hs : Mirrors s { m.world with shared := s.shared }) {task : Task I α} {depth : Nat}
    {outcome : Outcome I.Key (Result I α)} {ending : Option (Result I α)}
    (hrun : task.execute recipes depth s = (outcome, s')) (hending : outcome.ending? = some ending) :
    ∃ later w, Uses recipes m later ⟨[.ended ending], w⟩ ∧ Mirrors s' w := by
  obtain ⟨w, ⟨n, hn⟩, hmirrors⟩ := Task.execute_ends hs hrun hending
  have hused : Uses recipes m _ _ := (Uses.refl.again hover task s.shared).follow n
  rw [hn] at hused
  exact ⟨_, w, hused, hmirrors⟩

theorem solitary (h : Alone log m) (recipes : Recipes I σ) : Solitary recipes log m where
  unblocked hover := by
    obtain ⟨t, hsome⟩ := h.orderly.exists_step recipes hover
    obtain ⟨m', hstep⟩ := Option.isSome_iff_exists.mp hsome
    obtain ⟨thread, hthread, -⟩ := h.single
    obtain ⟨thread', -, -, hthread', -⟩ := Machine.step_eq_some hstep
    obtain rfl : t = 0 := by
      have hlt := (List.getElem?_eq_some_iff.mp hthread').1
      simpa [hthread] using hlt
    exact hsome
  awake k hasleep := by
    obtain ⟨⟨goal, control, frames⟩, hthread, hquiet⟩ := h.single
    have hnow : m.threads[0]? = some ⟨goal, control, frames⟩ := by rw [hthread]; rfl
    rw [Machine.board_stage hnow] at hasleep
    cases control with
    | wait k' phase next =>
      obtain ⟨rfl, rfl⟩ := Stage.wait.inj hasleep
      exact hquiet
    | _ => cases hasleep
  first goal r next frames hthread hnew := by
    have hfree : m.world.cells.get? (I.key r) = none := by
      have hnone := mt (h.requested (I.key r)).mp hnew
      rwa [World.state?, Option.isSome_map, Option.not_isSome_iff_eq_none] at hnone
    refine .step (e := some (.begins 0 r)) ?_ ?_ (.refl _ _)
    · simp [Thread.step, Thread.stepTask, hfree]
    · simp [Control.event?, hfree]
  repeated goal r next frames hthread hold := by
    obtain ⟨state, hslot⟩ := Option.isSome_iff_exists.mp ((h.requested (I.key r)).mpr hold)
    exact ⟨state, hslot, h.repeated hthread hslot⟩
  returned goal k next rest ending hthread := h.returned hthread
  looked goal k next frames hthread :=
    ⟨m.world.ready? k, .step rfl rfl (.refl _ _), fun v => World.ready?_eq_some⟩
  building k := by
    refine ⟨fun hopen => ?_, Discipline.building_of_mem_keys h.recorded.coherent⟩
    obtain ⟨threads, w⟩ := m
    obtain ⟨thread, rfl, -⟩ := h.single
    exact Machine.mem_keys_of_building h.recorded.coherent hopen
  settled task frames hthread k hopen := by
    obtain ⟨threads, w⟩ := m
    obtain rfl : threads = _ := hthread
    have hmem := Machine.mem_keys_of_building h.recorded.coherent hopen
    cases frames
    cases hmem
  ready := h.ready_iff
  failed := h.failed_iff
  fate := h.recorded.fate
  lasting k state hslot hsettled later m' hused := h.state?_of_uses hused hslot hsettled
  size := h.size_eq
  executed _ _ _ _ _ _ hover hs hrun hending := executed hover hs hrun hending

end Alone

/-- What a thread sees that is alone, whatever tasks it runs one after another. -/
theorem solitary_of_uses {recipes : Recipes I σ} {task : Task I α} {shared : σ} {log : List (Event I)}
    {m : Machine I σ α} (hused : Uses recipes (Machine.start [task] shared) log m) :
    Solitary recipes log m :=
  ((Alone.start task shared).of_uses hused).solitary recipes

namespace Script

/-- A factory that asks for its own key, passes over that and the failure of another key, and is unwound when
the factory of a third one panics. -/
def tumble : Step :=
  .insert (.mk 0 [.insert (.mk 0 [] (.value 1) false), .insert (.mk 1 [] (.fault 7) false), .get 1,
    .insert (.mk 2 [] .panic false)] (.value 5) true)

/-- Asks for a key whose factory has been unwound, and for one that is new. -/
def recover : List Step :=
  [.insert (.mk 0 [] (.value 9) false), .insert (.mk 3 [] (.sum 4) true), .get 3]

/-- The thread after the panic. -/
def tumbled : Machine script (List Event) UInt32 :=
  (Machine.start [runSteps 0 [tumble]] []).follow recipes (List.replicate 40 0)

/-- The thread at the end of another task. -/
def recovered : Machine script (List Event) UInt32 :=
  (⟨[.start (runSteps 0 recover)], { tumbled.world with shared := [] }⟩ : Machine _ _ _).follow recipes
    (List.replicate 20 0)

theorem recovered_solitary :
    ∃ log, Uses recipes (Machine.start [runSteps 0 [tumble]] []) log recovered ∧
      Solitary recipes log recovered ∧ recovered.isOver = true ∧ recovered.world.cells.size = 4 := by
  have htumbled : Uses recipes (Machine.start [runSteps 0 [tumble]] []) _ tumbled := Uses.refl.follow 40
  have hrecovered : Uses recipes (Machine.start [runSteps 0 [tumble]] []) _ recovered :=
    (htumbled.again (by decide +kernel) (runSteps 0 recover) []).follow 20
  exact ⟨_, hrecovered, solitary_of_uses hrecovered, by decide +kernel, by decide +kernel⟩

end Script

end ShaderLowering.Construction
