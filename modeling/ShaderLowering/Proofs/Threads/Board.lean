import Mathlib.Logic.Function.Basic
import ShaderLowering.Proofs.Threads.Steps

/-!
# Who constructs what, and who waits for whom

A `Board` is what remains of a machine when values and tasks are forgotten: per thread the keys that
it has under construction and the stage that it is at, per key the standing of its slot, the records
of waiting threads, and the lock.  Every step of a machine is one of the moves of its board
(`Board.Step`, `board_step`), so whatever holds of all boards that moves lead to holds of all
machines, under every schedule.
-/

namespace ShaderLowering.Construction

/-- What a thread is doing: its task, waiting for a slot, removing the record of a wait that is over,
or publishing the end of its innermost construction. -/
inductive Stage (κ : Type) where
  | run
  | wait (key : κ) (phase : Phase)
  | leave (key : κ)
  | publish

/-- What is known of a slot: who constructs it, whether its flag is raised, whether its state is
still open. -/
structure Standing where
  owner : ThreadId
  finished : Bool
  building : Bool

/-- A machine without its values and tasks. -/
structure Board (κ : Type) where
  keys : ThreadId → List κ
  stage : ThreadId → Stage κ
  slot : κ → Option Standing
  waiting : ThreadId → Option κ
  lock : Option ThreadId

namespace Board

variable {κ : Type} [DecidableEq κ]

/-- The slot of a key is settled. -/
def Settled (b : Board κ) (k : κ) : Prop :=
  ∃ s, b.slot k = some s ∧ s.building = false

/-- The construction of a key is under way. -/
def Unfinished (b : Board κ) (k : κ) : Prop :=
  ∃ s, b.slot k = some s ∧ s.finished = false

/-- The moves of a thread. -/
inductive Step (t : ThreadId) : Board κ → Board κ → Prop
  | run {b : Board κ} (hstage : b.stage t = .run) : Step t b b
  | request {b : Board κ} {k : κ} (hstage : b.stage t = .run) (hslot : (b.slot k).isSome) :
      Step t b { b with stage := Function.update b.stage t (.wait k .inspect) }
  | install {b : Board κ} {k : κ} (hstage : b.stage t = .run) (hslot : b.slot k = none) :
      Step t b { b with
        keys := Function.update b.keys t (k :: b.keys t)
        slot := Function.update b.slot k (some ⟨t, false, true⟩) }
  | finish {b : Board κ} {k : κ} {ks : List κ} (hstage : b.stage t = .run)
      (hkeys : b.keys t = k :: ks) :
      Step t b { b with
        stage := Function.update b.stage t .publish
        slot := Function.update b.slot k ((b.slot k).map fun s => { s with finished := true }) }
  | settle {b : Board κ} {k : κ} {ks : List κ} (hstage : b.stage t = .publish)
      (hkeys : b.keys t = k :: ks) :
      Step t b { b with
        keys := Function.update b.keys t ks
        stage := Function.update b.stage t .run
        slot := Function.update b.slot k ((b.slot k).map fun s => { s with building := false }) }
  | answer {b : Board κ} {k : κ} (hstage : b.stage t = .wait k .inspect) (hset : b.Settled k) :
      Step t b { b with stage := Function.update b.stage t .run }
  | queue {b : Board κ} {k : κ} (hstage : b.stage t = .wait k .inspect) :
      Step t b { b with stage := Function.update b.stage t (.wait k .enlist) }
  | enter {b : Board κ} {k : κ} (hstage : b.stage t = .wait k .enlist) (hlock : b.lock = none) :
      Step t b { b with stage := Function.update b.stage t (.wait k .check), lock := some t }
  | skip {b : Board κ} {k : κ} (hstage : b.stage t = .wait k .check) (hdone : ¬b.Unfinished k) :
      Step t b { b with stage := Function.update b.stage t (.wait k .await), lock := none }
  | chase {b : Board κ} {k : κ} {s : Standing} (hstage : b.stage t = .wait k .check)
      (hslot : b.slot k = some s) (hopen : s.finished = false) :
      Step t b { b with stage := Function.update b.stage t (.wait k (.chase s.owner)) }
  | refuse {b : Board κ} {k : κ} (hstage : b.stage t = .wait k (.chase t)) :
      Step t b { b with stage := Function.update b.stage t .run, lock := none }
  | commit {b : Board κ} {k : κ} {o : ThreadId} (hstage : b.stage t = .wait k (.chase o))
      (hother : o ≠ t) (hend : ∀ link, b.waiting o = some link → ¬b.Unfinished link) :
      Step t b { b with
        stage := Function.update b.stage t (.wait k .await)
        waiting := Function.update b.waiting t (some k)
        lock := none }
  | follow {b : Board κ} {k link : κ} {o : ThreadId} {s : Standing}
      (hstage : b.stage t = .wait k (.chase o)) (hother : o ≠ t)
      (hlink : b.waiting o = some link) (hslot : b.slot link = some s)
      (hopen : s.finished = false) :
      Step t b { b with stage := Function.update b.stage t (.wait k (.chase s.owner)) }
  | wake {b : Board κ} {k : κ} (hstage : b.stage t = .wait k .await) (hset : b.Settled k) :
      Step t b { b with stage := Function.update b.stage t (.leave k) }
  | doze {b : Board κ} {k : κ} (hstage : b.stage t = .wait k .await) :
      Step t b { b with stage := Function.update b.stage t (.wait k .asleep) }
  | stir {b : Board κ} {k : κ} (hstage : b.stage t = .wait k .asleep) :
      Step t b { b with stage := Function.update b.stage t (.wait k .await) }
  | leave {b : Board κ} {k : κ} (hstage : b.stage t = .leave k) (hlock : b.lock = none) :
      Step t b { b with
        stage := Function.update b.stage t .run
        waiting := Function.update b.waiting t none }

end Board

/-! ## The board of a machine -/

variable {I : Interface} {σ α : Type}

namespace Thread

/-- The keys that a thread has under construction, innermost first. -/
def keys (thread : Thread I α) : List I.Key :=
  thread.frames.keys

/-- What a thread is doing. -/
def stage (thread : Thread I α) : Stage I.Key :=
  match thread.control with
  | .run _ => .run
  | .wait key phase _ => .wait key phase
  | .leave key _ _ => .leave key
  | .publish _ => .publish

end Thread

/-- What is known of a slot. -/
def Cell.standing {β : Type} (cell : Cell β) : Standing :=
  ⟨cell.owner, cell.finished, match cell.state with
    | .building => true
    | _ => false⟩

namespace World

/-- What is known of every slot. -/
def standings (w : World I σ) (k : I.Key) : Option Standing :=
  (w.cells.get? k).map Cell.standing

theorem get?_modifyCell_self (w : World I σ) (k : I.Key)
    (f : Cell (I.Value k) → Cell (I.Value k)) :
    (w.modifyCell k f).cells.get? k = (w.cells.get? k).map f := by
  unfold modifyCell
  cases h : w.cells.get? k with
  | none => simp [h]
  | some cell => simp

theorem get?_modifyCell_of_ne {k k' : I.Key} (hne : k' ≠ k) (w : World I σ)
    (f : Cell (I.Value k) → Cell (I.Value k)) :
    (w.modifyCell k f).cells.get? k' = w.cells.get? k' := by
  unfold modifyCell
  cases w.cells.get? k with
  | none => rfl
  | some cell => simp [Table.get?_set_of_ne hne]

@[simp] theorem waiting_modifyCell (w : World I σ) (k : I.Key)
    (f : Cell (I.Value k) → Cell (I.Value k)) : (w.modifyCell k f).waiting = w.waiting := by
  unfold modifyCell
  split <;> rfl

@[simp] theorem lock_modifyCell (w : World I σ) (k : I.Key)
    (f : Cell (I.Value k) → Cell (I.Value k)) : (w.modifyCell k f).lock = w.lock := by
  unfold modifyCell
  split <;> rfl

@[simp] theorem shared_modifyCell (w : World I σ) (k : I.Key)
    (f : Cell (I.Value k) → Cell (I.Value k)) : (w.modifyCell k f).shared = w.shared := by
  unfold modifyCell
  split <;> rfl

/-- Changing a cell changes the standing of its slot, and of no other. -/
theorem standings_modifyCell (w : World I σ) (k : I.Key)
    (f : Cell (I.Value k) → Cell (I.Value k)) (g : Standing → Standing)
    (hg : ∀ cell, (f cell).standing = g cell.standing) :
    (w.modifyCell k f).standings = Function.update w.standings k ((w.standings k).map g) := by
  funext k'
  by_cases hk : k' = k
  · subst hk
    rw [Function.update_self, standings, get?_modifyCell_self, standings]
    cases w.cells.get? k' with
    | none => rfl
    | some cell => exact congrArg some (hg cell)
  · rw [Function.update_of_ne hk, standings, get?_modifyCell_of_ne hk, standings]

theorem standings_install (w : World I σ) (t : ThreadId) (k : I.Key) :
    (w.install t k).standings = Function.update w.standings k (some ⟨t, false, true⟩) := by
  funext k'
  by_cases hk : k' = k
  · subst hk
    simp [standings, install, Cell.standing]
  · simp [standings, install, Table.get?_set_of_ne hk, hk]

theorem standings_sleep (w : World I σ) (t : ThreadId) (k : I.Key) :
    (w.sleep t k).standings = w.standings := by
  have hkept := standings_modifyCell w k (fun cell => { cell with sleepers := t :: cell.sleepers })
    id fun _ => rfl
  rw [Option.map_id, id, Function.update_eq_self] at hkept
  exact hkept

theorem lookup_cons_of_ne {r : ThreadId × I.Key} {t : ThreadId} (h : t ≠ r.1)
    (records : List (ThreadId × I.Key)) : (r :: records).lookup t = records.lookup t := by
  have hfalse : (t == r.1) = false := beq_eq_false_iff_ne.mpr h
  rw [List.lookup_cons, hfalse]

theorem lookup_filter_ne (records : List (ThreadId × I.Key)) (t t' : ThreadId) :
    (records.filter fun r => r.1 != t).lookup t' = if t' = t then none else records.lookup t' := by
  induction records with
  | nil => simp
  | cons r records ih =>
    by_cases hr : r.1 = t
    · rw [List.filter_cons_of_neg (by simpa using hr), ih]
      split
      · rfl
      · rename_i hne
        rw [lookup_cons_of_ne fun heq => hne (heq.trans hr)]
    · rw [List.filter_cons_of_pos (by simpa using hr)]
      by_cases ht : t' = r.1
      · subst ht
        rw [if_neg hr, List.lookup_cons, List.lookup_cons, beq_self_eq_true]
      · rw [lookup_cons_of_ne ht, lookup_cons_of_ne ht, ih]

theorem lookup_record (w : World I σ) (t : ThreadId) (k : I.Key) :
    (fun t' => (w.record t k).waiting.lookup t') =
      Function.update (fun t' => w.waiting.lookup t') t (some k) := by
  funext t'
  by_cases ht : t' = t
  · subst ht
    simp [record]
  · rw [Function.update_of_ne ht, record, lookup_cons_of_ne ht, lookup_filter_ne, if_neg ht]

theorem lookup_forget (w : World I σ) (t : ThreadId) :
    (fun t' => (w.forget t).waiting.lookup t') =
      Function.update (fun t' => w.waiting.lookup t') t none := by
  funext t'
  rw [forget, lookup_filter_ne]
  by_cases ht : t' = t
  · subst ht
    simp
  · simp [ht]

end World

/-- The board of a machine; threads that there are not have nothing to do. -/
def Machine.board (m : Machine I σ α) : Board I.Key where
  keys t := (m.threads[t]?).elim [] Thread.keys
  stage t := (m.threads[t]?).elim .run Thread.stage
  slot := m.world.standings
  waiting t := m.world.waiting.lookup t
  lock := m.world.lock

namespace Machine

variable {m : Machine I σ α} {t : ThreadId} {thread : Thread I α}

theorem board_keys (h : m.threads[t]? = some thread) : m.board.keys t = thread.keys := by
  simp [board, h]

theorem board_stage (h : m.threads[t]? = some thread) : m.board.stage t = thread.stage := by
  simp [board, h]

/-- The board after one thread and the shared world have changed. -/
theorem board_set (h : m.threads[t]? = some thread) (thread' : Thread I α) (w : World I σ) :
    (⟨m.threads.set t thread', w⟩ : Machine I σ α).board =
      { keys := Function.update m.board.keys t thread'.keys
        stage := Function.update m.board.stage t thread'.stage
        slot := w.standings
        waiting := fun t' => w.waiting.lookup t'
        lock := w.lock } := by
  have hin : t < m.threads.length := (List.getElem?_eq_some_iff.mp h).1
  have hget : ∀ t', (m.threads.set t thread')[t']? = if t' = t then some thread' else
      m.threads[t']? := by
    intro t'
    by_cases ht : t' = t
    · subst ht
      simp [hin]
    · simp [ht, List.getElem?_set_ne (Ne.symm ht)]
  unfold board
  congr 1
  · funext t'
    by_cases ht : t' = t
    · subst ht
      simp [hget]
    · simp [hget, ht]
  · funext t'
    by_cases ht : t' = t
    · subst ht
      simp [hget]
    · simp [hget, ht]

end Machine

/-! ## Every step is a move -/

namespace World

theorem settled_of_answer? {w : World I σ} {k : I.Key} {result : Result I (I.Value k)}
    (h : Thread.answer? w k = some result) :
    ∃ s, w.standings k = some s ∧ s.building = false := by
  unfold Thread.answer? at h
  unfold World.standings
  split at h
  · next hcell => exact ⟨_, by rw [hcell]; rfl, rfl⟩
  · next hcell => exact ⟨_, by rw [hcell]; rfl, rfl⟩
  · simp at h

theorem isFinished_eq_true_iff {w : World I σ} {k : I.Key} :
    w.isFinished k = true ↔ ∀ s, w.standings k = some s → s.finished = true := by
  unfold World.isFinished World.standings
  cases w.cells.get? k with
  | none => simp
  | some cell => simp [Cell.standing]

theorem not_unfinished_of_isFinished {w : World I σ} {k : I.Key} (h : w.isFinished k = true) :
    ¬∃ s, w.standings k = some s ∧ s.finished = false := by
  rintro ⟨s, hslot, hopen⟩
  rw [isFinished_eq_true_iff.mp h s hslot] at hopen
  cases hopen

theorem isFinished_eq_false_iff {w : World I σ} {k : I.Key} :
    w.isFinished k = false ↔ ∃ s, w.standings k = some s ∧ s.finished = false := by
  unfold World.isFinished World.standings
  cases w.cells.get? k with
  | none => simp
  | some cell => simp [Cell.standing]

theorem owner?_eq {w : World I σ} {k : I.Key} :
    w.owner? k = (w.standings k).map Standing.owner := by
  unfold World.owner? World.standings
  cases w.cells.get? k with
  | none => rfl
  | some cell => rfl

theorem exists_standing_of_open {w : World I σ} {k : I.Key} {owner : ThreadId}
    (hopen : w.isFinished k = false) (howner : w.owner? k = some owner) :
    ∃ s, w.standings k = some s ∧ s.finished = false ∧ s.owner = owner := by
  obtain ⟨s, hslot, hflag⟩ := isFinished_eq_false_iff.mp hopen
  rw [owner?_eq, hslot] at howner
  exact ⟨s, hslot, hflag, Option.some.inj howner⟩

theorem standings_finish (w : World I σ) (k : I.Key) :
    (w.finish k).standings =
      Function.update w.standings k ((w.standings k).map fun s => { s with finished := true }) :=
  standings_modifyCell w k _ _ fun _ => rfl

theorem standings_settle (w : World I σ) (k : I.Key) {state : SlotState (I.Value k)}
    (hstate : state ≠ .building) :
    (w.settle k state).standings =
      Function.update w.standings k ((w.standings k).map fun s => { s with building := false }) := by
  refine standings_modifyCell w k _ _ fun cell => ?_
  cases state with
  | building => exact absurd rfl hstate
  | ready value => rfl
  | failed => rfl

end World

theorem Thread.endingState_ne_building {β : Type} (ending : Option (Result I β)) :
    Thread.endingState ending ≠ .building := by
  rcases ending with _ | _ | value
  · exact nofun
  · exact nofun
  · exact nofun

namespace Machine

variable {m : Machine I σ α} {t : ThreadId} {thread thread' : Thread I α} {w : World I σ}

/-- The board after a change that keeps the constructions, the slots and the records. -/
theorem board_set_stage (h : m.threads[t]? = some thread) (hkeys : thread'.keys = thread.keys)
    (hslot : w.standings = m.world.standings) (hwaiting : w.waiting = m.world.waiting) :
    (⟨m.threads.set t thread', w⟩ : Machine I σ α).board =
      { m.board with stage := Function.update m.board.stage t thread'.stage, lock := w.lock } := by
  rw [board_set h, hkeys, ← board_keys h, Function.update_eq_self, hslot, hwaiting]
  rfl

/-- A move that keeps the constructions, the slots and the records. -/
theorem board_move (h : m.threads[t]? = some thread) (hkeys : thread'.keys = thread.keys)
    (hslot : w.standings = m.world.standings) (hwaiting : w.waiting = m.world.waiting)
    (hmove : m.board.Step t
      { m.board with stage := Function.update m.board.stage t thread'.stage, lock := w.lock }) :
    m.board.Step t (⟨m.threads.set t thread', w⟩ : Machine I σ α).board := by
  rw [board_set_stage h hkeys hslot hwaiting]
  exact hmove

/-- The board after a wait has been recorded and the lock given back. -/
theorem board_record {goal : Goal I.Key} {frames : Frames I α goal} {k : I.Key} {phase : Phase}
    {next : Result I (I.Value k) → Task I (goal.Value I α)}
    (h : m.threads[t]? = some ⟨goal, .wait k phase next, frames⟩) :
    (⟨m.threads.set t ⟨goal, .wait k .await next, frames⟩, (m.world.record t k).setLock none⟩ :
      Machine I σ α).board =
      { m.board with
        stage := Function.update m.board.stage t (.wait k .await)
        waiting := Function.update m.board.waiting t (some k)
        lock := none } := by
  have hkeys : m.board.keys t = frames.keys := board_keys h
  have hsame : (⟨goal, .wait k .await next, frames⟩ : Thread I α).keys = m.board.keys t :=
    hkeys.symm
  have hwaiting : (fun t' => ((m.world.record t k).setLock none).waiting.lookup t') =
      Function.update m.board.waiting t (some k) := World.lookup_record m.world t k
  rw [board_set h, hsame, Function.update_eq_self, hwaiting]
  rfl

/-- A running task goes on to another one. -/
theorem board_run (h : m.threads[t]? = some thread) (hstage : thread.stage = .run)
    (hkeys : thread'.keys = thread.keys) (hstage' : thread'.stage = .run)
    (hslot : w.standings = m.world.standings) (hwaiting : w.waiting = m.world.waiting)
    (hlock : w.lock = m.world.lock) :
    m.board.Step t (⟨m.threads.set t thread', w⟩ : Machine I σ α).board := by
  have hrun : m.board.stage t = .run := (board_stage h).trans hstage
  have hkept : Function.update m.board.stage t .run = m.board.stage := by
    rw [← hrun, Function.update_eq_self]
  rw [board_set_stage h hkeys hslot hwaiting, hstage', hkept, hlock]
  exact .run hrun

/-- A request for a free key installs a slot. -/
theorem board_begins {recipes : Recipes I σ} {goal : Goal I.Key} {frames : Frames I α goal}
    {r : I.Request} {next : Result I (I.Value (I.key r)) → Task I (goal.Value I α)}
    (h : m.threads[t]? = some ⟨goal, .run (.request r next), frames⟩)
    (hfree : m.world.cells.get? (I.key r) = none) :
    m.board.Step t (⟨m.threads.set t ⟨.construct (I.key r), .run (recipes.factory r),
      .enclosed (I.key r) next frames⟩, m.world.install t (I.key r)⟩ : Machine I σ α).board := by
  have hstage : m.board.stage t = .run := board_stage h
  have hkeys : m.board.keys t = frames.keys := board_keys h
  have hslot : m.board.slot (I.key r) = none := by
    show m.world.standings (I.key r) = none
    rw [World.standings, hfree]
    rfl
  -- The new construction runs, as the thread did before, so only its keys have changed.
  have hkept : Function.update m.board.stage t .run = m.board.stage := by
    rw [← hstage, Function.update_eq_self]
  have hmove := Board.Step.install hstage hslot
  rw [board_set h, World.standings_install]
  simp only [Thread.stage, Thread.keys, Frames.keys, hkept]
  rw [← hkeys]
  exact hmove

/-- A factory that comes to its end raises the flag of its slot. -/
theorem board_finish {goal : Goal I.Key} {k : I.Key} {task : Task I (I.Value k)}
    {next : Result I (I.Value k) → Task I (goal.Value I α)} {rest : Frames I α goal}
    (h : m.threads[t]? = some ⟨.construct k, .run task, .enclosed k next rest⟩)
    (ending : Option (Result I (I.Value k))) :
    m.board.Step t (⟨m.threads.set t ⟨.construct k, .publish ending, .enclosed k next rest⟩,
      m.world.finish k⟩ : Machine I σ α).board := by
  have hkeys : m.board.keys t = k :: rest.keys := board_keys h
  have hmove := Board.Step.finish (board_stage h) hkeys
  have hsame : (⟨.construct k, .publish ending, .enclosed k next rest⟩ : Thread I α).keys =
      m.board.keys t := hkeys.symm
  rw [board_set h, hsame, Function.update_eq_self, World.standings_finish, World.finish,
    World.waiting_modifyCell, World.lock_modifyCell]
  exact hmove

/-- A waiting thread comes one phase further. -/
theorem board_waitsTo {goal : Goal I.Key} {frames : Frames I α goal} {k : I.Key} {phase : Phase}
    {next : Result I (I.Value k) → Task I (goal.Value I α)} {control : Control I α goal}
    (h : m.threads[t]? = some ⟨goal, .wait k phase next, frames⟩)
    (hwait : Thread.WaitsTo t m.world k next phase control w) :
    m.board.Step t (⟨m.threads.set t ⟨goal, control, frames⟩, w⟩ : Machine I σ α).board := by
  have hstage : m.board.stage t = .wait k phase := board_stage h
  cases hwait with
  | answer hanswer => exact board_move h rfl rfl rfl (.answer hstage (World.settled_of_answer? hanswer))
  | queue => exact board_move h rfl rfl rfl (.queue hstage)
  | enter hlock => exact board_move h rfl rfl rfl (.enter hstage hlock)
  | skip hdone =>
    exact board_move h rfl rfl rfl (.skip hstage (World.not_unfinished_of_isFinished hdone))
  | chase hopen howner =>
    obtain ⟨s, hslot, hflag, rfl⟩ := World.exists_standing_of_open hopen howner
    exact board_move h rfl rfl rfl (.chase hstage hslot hflag)
  | refuse => exact board_move h rfl rfl rfl (.refuse hstage)
  | commit hother hend =>
    rw [board_record h]
    exact .commit hstage hother fun link hlink => World.not_unfinished_of_isFinished (hend link hlink)
  | follow hother hlink hopen howner =>
    obtain ⟨s, hslot, hflag, rfl⟩ := World.exists_standing_of_open hopen howner
    exact board_move h rfl rfl rfl (.follow hstage hother hlink hslot hflag)
  | wake hanswer => exact board_move h rfl rfl rfl (.wake hstage (World.settled_of_answer? hanswer))
  | doze =>
    refine board_move h rfl (World.standings_sleep _ _ _) (World.waiting_modifyCell _ _ _) ?_
    rw [World.sleep, World.lock_modifyCell]
    exact .doze hstage
  | stir => exact board_move h rfl rfl rfl (.stir hstage)

/-- The record of a wait that is over is removed. -/
theorem board_leave {goal : Goal I.Key} {frames : Frames I α goal} {k : I.Key}
    {result : Result I (I.Value k)} {next : Result I (I.Value k) → Task I (goal.Value I α)}
    (h : m.threads[t]? = some ⟨goal, .leave k result next, frames⟩) (hlock : m.world.lock = none) :
    m.board.Step t (⟨m.threads.set t ⟨goal, .run (next result), frames⟩, m.world.forget t⟩ :
      Machine I σ α).board := by
  have hmove := Board.Step.leave (board_stage h) hlock
  have hkeys : m.board.keys t = frames.keys := board_keys h
  have hsame : (⟨goal, .run (next result), frames⟩ : Thread I α).keys = m.board.keys t := hkeys.symm
  rw [board_set h, hsame, Function.update_eq_self, World.lookup_forget]
  exact hmove

/-- The end of a construction is published. -/
theorem board_publish {goal : Goal I.Key} {k : I.Key}
    {next : Result I (I.Value k) → Task I (goal.Value I α)} {rest : Frames I α goal}
    {ending : Option (Result I (I.Value k))}
    (h : m.threads[t]? = some ⟨.construct k, .publish ending, .enclosed k next rest⟩) :
    m.board.Step t (⟨m.threads.set t ⟨goal, .run (ending.elim .panic next), rest⟩,
      m.world.settle k (Thread.endingState ending)⟩ : Machine I σ α).board := by
  have hkeys : m.board.keys t = k :: rest.keys := board_keys h
  have hmove := Board.Step.settle (board_stage h) hkeys
  rw [board_set h, World.standings_settle _ _ (Thread.endingState_ne_building ending),
    World.settle, World.waiting_modifyCell, World.lock_modifyCell]
  exact hmove

/-- What a thread does is a move of the board. -/
theorem board_stepsTo {recipes : Recipes I σ} (h : m.threads[t]? = some thread)
    (hstep : thread.StepsTo recipes t m.world thread' w) :
    m.board.Step t (⟨m.threads.set t thread', w⟩ : Machine I σ α).board := by
  cases hstep with
  | act => exact board_run h rfl rfl rfl rfl rfl rfl
  | peek => exact board_run h rfl rfl rfl rfl rfl rfl
  | arrive htaken =>
    exact board_move h rfl rfl rfl (.request (board_stage h) (Option.isSome_map.trans htaken))
  | begins hfree => exact board_begins h hfree
  | finish => exact board_finish h _
  | wait hwait => exact board_waitsTo h hwait
  | leave hlock => exact board_leave h hlock
  | publish => exact board_publish h

/-- Every step of a machine is a move of its board. -/
theorem board_step {recipes : Recipes I σ} {m' : Machine I σ α} (h : m.step recipes t = some m') :
    m.board.Step t m'.board := by
  obtain ⟨thread, thread', w, hthread, hstep, rfl⟩ := stepsTo_of_step h
  exact board_stepsTo hthread hstep

end Machine

end ShaderLowering.Construction
