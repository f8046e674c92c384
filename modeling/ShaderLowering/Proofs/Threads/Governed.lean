import ShaderLowering.Proofs.Threads.Discipline

/-!
# Machines under a discipline

A machine is `Governed` by a discipline if its threads are safe, its slots hold what the discipline
says of them, and its board is coherent.  Every step of every thread keeps it governed
(`Governed.step`), so every schedule does (`Governed.follow`).

The two places where threads meet are settled here once and for all.  A note is made only in the name
of the innermost construction of a thread, which is under way and on no other stack, so nobody else
relied on its absence.  And a request is refused only if its key waits for itself; every wait is for a
key that may be asked for, so the key needs itself and has to fail.
-/

namespace ShaderLowering.Construction

open Relation (ReflTransGen TransGen)

variable {I : Interface} {σ ν α : Type}

/-- The key that a thread is about to ask for on its own account. -/
def Thread.asking? (thread : Thread I α) : Option I.Key :=
  match thread with
  | ⟨.top, .run (.request r _), _⟩ => some (I.key r)
  | _ => none

/-- The key that one of the threads is about to ask for on its own account. -/
def Machine.asking? (m : Machine I σ α) (t : ThreadId) : Option I.Key :=
  m.threads[t]?.bind Thread.asking?

/-- The state of a slot. -/
def World.state? (w : World I σ) (k : I.Key) : Option (SlotState (I.Value k)) :=
  (w.cells.get? k).map Cell.state

namespace World

variable {σ : Type} {w : World I σ} {k k' : I.Key}

theorem state?_modifyCell {f : Cell (I.Value k) → Cell (I.Value k)}
    (hkeep : ∀ cell, (f cell).state = cell.state) (k' : I.Key) :
    (w.modifyCell k f).state? k' = w.state? k' := by
  by_cases hk : k' = k
  · subst hk
    rw [state?, get?_modifyCell_self, state?, Option.map_map]
    congr 1
    exact funext hkeep
  · rw [state?, get?_modifyCell_of_ne hk, state?]

theorem state?_finish (w : World I σ) (k k' : I.Key) : (w.finish k).state? k' = w.state? k' :=
  state?_modifyCell (f := fun cell => { cell with finished := true }) (fun _ => rfl) k'

theorem state?_sleep (w : World I σ) (t : ThreadId) (k k' : I.Key) :
    (w.sleep t k).state? k' = w.state? k' :=
  state?_modifyCell (f := fun cell => { cell with sleepers := t :: cell.sleepers }) (fun _ => rfl) k'

theorem state?_install (w : World I σ) (t : ThreadId) (k : I.Key) :
    (w.install t k).state? k = some .building := by
  simp [state?, install]

theorem state?_install_of_ne (hne : k' ≠ k) (w : World I σ) (t : ThreadId) :
    (w.install t k).state? k' = w.state? k' := by
  rw [state?, install, Table.get?_set_of_ne hne, state?]

theorem state?_settle (state : SlotState (I.Value k)) (hk : (w.state? k).isSome) :
    (w.settle k state).state? k = some state := by
  obtain ⟨cell, hcell⟩ := Option.isSome_iff_exists.mp (Option.isSome_map.symm.trans hk)
  rw [state?, settle, get?_modifyCell_self, hcell]
  rfl

theorem state?_settle_of_ne (hne : k' ≠ k) (w : World I σ) (state : SlotState (I.Value k)) :
    (w.settle k state).state? k' = w.state? k' := by
  rw [state?, settle, get?_modifyCell_of_ne hne, state?]

theorem ready?_eq_some {v : I.Value k} : w.ready? k = some v ↔ w.state? k = some (.ready v) := by
  rw [ready?, state?]
  rcases w.cells.get? k with _ | ⟨owner, finished, _ | v' | _, sleepers⟩ <;> simp [SlotState.value?]

end World

namespace Discipline

variable (D : Discipline I σ ν)

/-- What a task for a goal has to end with. -/
def Ends (Q : List (I.Key × ν) → Result I α → Prop) :
    (goal : Goal I.Key) → List (I.Key × ν) → Result I (goal.Value I α) → Prop
  | .top => Q
  | .construct k => fun h => D.Concludes h k

/-- A task for a goal that has asked for a key goes on safely, whatever the answer. -/
structure Resumes (goal : Goal I.Key) (h : List (I.Key × ν)) (k : I.Key) {β : Type}
    (next : Result I (I.Value k) → Task I β) (Q : List (I.Key × ν) → Result I β → Prop) : Prop where
  allowed : D.Allows goal k
  safe : ∀ h' s, D.Later goal h h' s → ∀ result, D.Answers h' k result →
    D.Safe goal h' (next result) Q

/-- What a thread does next is safe. -/
def ControlSafe (Q : List (I.Key × ν) → Result I α → Prop) (goal : Goal I.Key)
    (h : List (I.Key × ν)) : Control I α goal → Prop
  | .run task => D.Safe goal h task (D.Ends Q goal)
  | .wait k _ next => D.Resumes goal h k next (D.Ends Q goal)
  | .leave k result next => D.Answers h k result ∧ D.Resumes goal h k next (D.Ends Q goal)
  | .publish ending => ∀ h' s, D.Later goal h h' s → ∃ r, ending = some r ∧ D.Ends Q goal h' r

/-- The constructions around the running task go on safely. -/
def FramesSafe (Q : List (I.Key × ν) → Result I α → Prop) (h : List (I.Key × ν)) :
    {goal : Goal I.Key} → Frames I α goal → Prop
  | _, .base => True
  | _, @Frames.enclosed _ _ goal k next rest =>
    D.Resumes goal h k next (D.Ends Q goal) ∧ FramesSafe Q h rest

/-- A thread and the constructions it has under way are safe. -/
structure ThreadSafe (Q : List (I.Key × ν) → Result I α → Prop) (h : List (I.Key × ν))
    (thread : Thread I α) : Prop where
  control : D.ControlSafe Q thread.goal h thread.control
  frames : D.FramesSafe Q h thread.frames

/-- A machine keeps to a discipline; each thread is to end with what is shown of its own task. -/
structure Governed (P : ThreadId → List (I.Key × ν) → Result I α → Prop) (m : Machine I σ α)
    (h : List (I.Key × ν)) : Prop where
  coherent : m.board.Coherent
  chased : m.board.Chased
  inv : D.inv h m.world.shared
  noted : ∀ n ∈ h, (m.world.state? n.1).isSome
  known : ∀ k, (m.world.state? k).isSome → D.known h k
  ready : ∀ k v, m.world.state? k = some (.ready v) → D.holds h k v
  failed : ∀ k, m.world.state? k = some .failed → D.fails k
  abandoned : ∀ k, m.world.state? k = some .failed → D.abandoned h k
  threads : ∀ (t : ThreadId) thread, m.threads[t]? = some thread → D.ThreadSafe (P t) h thread

/-- What a thread is about to ask for on its own account is known. -/
def Vouches (m : Machine I σ α) (t : ThreadId) (h : List (I.Key × ν)) : Prop :=
  ∀ k, m.asking? t = some k → D.known h k

/-! ## Growing histories -/

variable {D} {Q : List (I.Key × ν) → Result I α → Prop}
  {P : ThreadId → List (I.Key × ν) → Result I α → Prop} {goal : Goal I.Key}
  {h l : List (I.Key × ν)}

theorem Relies.append (hl : ∀ n ∈ l, goal ≠ .construct n.1) : Relies goal h (h ++ l) :=
  ⟨l, rfl, hl⟩

theorem Vouched.later (hlawful : D.Lawful) {h' : List (I.Key × ν)} {k : I.Key}
    (hvouched : D.Vouched goal h k) (hrelies : Relies goal h h') : D.Vouched goal h' k := by
  obtain ⟨l, rfl, -⟩ := hrelies
  exact fun htrusted htop => hlawful.known_append h l k (hvouched htrusted htop)

theorem Resumes.append {k : I.Key} {β : Type} {next : Result I (I.Value k) → Task I β}
    {P : List (I.Key × ν) → Result I β → Prop} (hl : ∀ n ∈ l, goal ≠ .construct n.1)
    (hresumes : D.Resumes goal h k next P) : D.Resumes goal (h ++ l) k next P :=
  ⟨hresumes.allowed, fun h' s hlater => hresumes.safe h' s (hlater.of_relies (.append hl))⟩

/-- A goal that is a key has that key on its stack. -/
theorem Frames.mem_keys {k : I.Key} (frames : Frames I α goal) (hgoal : goal = .construct k) :
    k ∈ frames.keys := by
  cases frames with
  | base => cases hgoal
  | enclosed k' next rest =>
    obtain rfl := Goal.construct.inj hgoal
    exact List.mem_cons_self

/-- The innermost construction of a thread is under way only once. -/
theorem Frames.not_mem_tail {k : I.Key} (frames : Frames I α goal) (hgoal : goal = .construct k)
    (hnodup : frames.keys.Nodup) : k ∉ frames.keys.tail := by
  cases frames with
  | base => cases hgoal
  | enclosed k' next rest =>
    obtain rfl := Goal.construct.inj hgoal
    exact (List.nodup_cons.mp hnodup).1

theorem FramesSafe.append {frames : Frames I α goal} (hl : ∀ n ∈ l, n.1 ∉ frames.keys.tail)
    (hsafe : D.FramesSafe Q h frames) : D.FramesSafe Q (h ++ l) frames := by
  induction frames with
  | base => trivial
  | enclosed k next rest ih =>
    refine ⟨hsafe.1.append fun n hn hgoal => hl n hn (Frames.mem_keys rest hgoal), ?_⟩
    exact ih (fun n hn hmem => hl n hn (List.mem_of_mem_tail hmem)) hsafe.2

/-- A thread stays safe while notes are made for none of its constructions, nor for a slot that it
has just seen settled. -/
theorem ThreadSafe.append (hlawful : D.Lawful) {thread : Thread I α}
    (hl : ∀ n ∈ l, n.1 ∉ thread.keys ∧ thread.stage ≠ .leave n.1)
    (hsafe : D.ThreadSafe Q h thread) : D.ThreadSafe Q (h ++ l) thread := by
  obtain ⟨goal, control, frames⟩ := thread
  have hgoal : ∀ n ∈ l, goal ≠ .construct n.1 := fun n hn hgoal =>
    (hl n hn).1 (Frames.mem_keys frames hgoal)
  refine ⟨?_, hsafe.frames.append fun n hn hmem => (hl n hn).1 (List.mem_of_mem_tail hmem)⟩
  have hcontrol := hsafe.control
  cases control with
  | run task => exact hcontrol.later (.append hgoal)
  | wait k phase next => exact hcontrol.append hgoal
  | leave k result next =>
    refine ⟨?_, hcontrol.2.append hgoal⟩
    cases result with
    | ok v =>
      refine hlawful.holds_append h l k v (fun n hn heq => (hl n hn).2 ?_) hcontrol.1
      rw [heq]
      rfl
    | error e => exact hcontrol.1
  | publish ending => exact fun h' s hlater => hcontrol h' s (hlater.of_relies (.append hgoal))

/-! ## One step -/

/-- The state of a slot after a step: as it was, or in order by itself. -/
def Orderly (D : Discipline I σ ν) (h : List (I.Key × ν)) (w w' : World I σ) (k : I.Key) : Prop :=
  w'.state? k = w.state? k ∨
    (w'.state? k).isSome ∧ D.known h k ∧ (∀ v, w'.state? k = some (.ready v) → D.holds h k v) ∧
      (w'.state? k = some .failed → D.fails k ∧ D.abandoned h k)

variable {m : Machine I σ α} {t : ThreadId} {thread thread' : Thread I α} {w : World I σ}

theorem building_of_mem_keys (hcoherent : m.board.Coherent) {k : I.Key} (hk : k ∈ m.board.keys t) :
    m.world.state? k = some .building := by
  obtain ⟨s, hs, -, hbuilding, -⟩ := hcoherent.stacked t k hk
  obtain ⟨cell, hcell, rfl⟩ := Option.map_eq_some_iff.mp hs
  rw [World.state?, hcell, Option.map_some]
  cases hstate : cell.state with
  | building => rfl
  | ready v => simp [Cell.standing, hstate] at hbuilding
  | failed => simp [Cell.standing, hstate] at hbuilding

theorem not_mem_keys_of_ne (hcoherent : m.board.Coherent) {t' : ThreadId} {k : I.Key}
    (hk : k ∈ m.board.keys t) (hne : t' ≠ t) : k ∉ m.board.keys t' :=
  fun hk' => hne (hcoherent.eq_of_mem_keys hk hk')

theorem stage_ne_leave (hcoherent : m.board.Coherent) {t' : ThreadId} {k : I.Key}
    (hk : k ∈ m.board.keys t) : m.board.stage t' ≠ .leave k := by
  intro hstage
  obtain ⟨s, hs, -, hbuilding, -⟩ := hcoherent.stacked t k hk
  obtain ⟨s', hs', hsettled⟩ := hcoherent.left t' k hstage
  rw [hs] at hs'
  obtain rfl := Option.some.inj hs'
  rw [hbuilding] at hsettled
  cases hsettled

/-- A step keeps a machine governed if the thread that takes it stays safe, makes notes only for
its innermost construction, and leaves the slots in order. -/
theorem Governed.of_step (hlawful : D.Lawful) (hm : D.Governed P m h)
    (hthread : m.threads[t]? = some thread)
    (hmove : m.board.Step t (⟨m.threads.set t thread', w⟩ : Machine I σ α).board)
    (hown : ∀ n ∈ l, thread.goal = .construct n.1) (hinv : D.inv (h ++ l) w.shared)
    (hslots : ∀ k, Orderly D (h ++ l) m.world w k) (hsafe : D.ThreadSafe (P t) (h ++ l) thread') :
    D.Governed P ⟨m.threads.set t thread', w⟩ (h ++ l) := by
  have hmine : ∀ n ∈ l, n.1 ∈ m.board.keys t := by
    intro n hn
    rw [Machine.board_keys hthread]
    exact Frames.mem_keys thread.frames (hown n hn)
  have hbuilding : ∀ n ∈ l, m.world.state? n.1 = some .building := fun n hn =>
    building_of_mem_keys hm.coherent (hmine n hn)
  have hkept : ∀ k, (m.world.state? k).isSome → (w.state? k).isSome := by
    intro k hk
    rcases hslots k with hsame | ⟨hsome, -⟩
    · rwa [hsame]
    · exact hsome
  -- A slot that is settled is on no stack, so none of the new notes is made in its name.
  have hothers : ∀ k, m.world.state? k ≠ some .building → ∀ n ∈ l, n.1 ≠ k := fun k hk n hn heq =>
    hk (heq ▸ hbuilding n hn)
  refine ⟨hm.coherent.step hmove, Board.chased_step hm.coherent hm.chased hmove, hinv, ?_, ?_, ?_,
    ?_, ?_, ?_⟩
  · intro n hn
    refine hkept n.1 ?_
    rcases List.mem_append.mp hn with hn | hn
    · exact hm.noted n hn
    · rw [hbuilding n hn]
      rfl
  · intro k hk
    rcases hslots k with hsame | ⟨-, hknown, -⟩
    · rw [hsame] at hk
      exact hlawful.known_append h l k (hm.known k hk)
    · exact hknown
  · intro k v hk
    rcases hslots k with hsame | ⟨-, -, hready, -⟩
    · rw [hsame] at hk
      exact hlawful.holds_append h l k v (hothers k (by simp [hk])) (hm.ready k v hk)
    · exact hready v hk
  · intro k hk
    rcases hslots k with hsame | ⟨-, -, -, hfailed⟩
    · rw [hsame] at hk
      exact hm.failed k hk
    · exact (hfailed hk).1
  · intro k hk
    rcases hslots k with hsame | ⟨-, -, -, hfailed⟩
    · rw [hsame] at hk
      exact hlawful.abandoned_append h l k (hothers k (by simp [hk])) (hm.abandoned k hk)
    · exact (hfailed hk).2
  · intro t' thread'' ht'
    by_cases hne : t' = t
    · subst hne
      have hin : t' < m.threads.length := (List.getElem?_eq_some_iff.mp hthread).1
      rw [List.getElem?_set_self hin] at ht'
      obtain rfl := Option.some.inj ht'
      exact hsafe
    · rw [List.getElem?_set_ne (Ne.symm hne)] at ht'
      refine (hm.threads t' thread'' ht').append hlawful fun n hn => ⟨?_, ?_⟩
      · rw [← Machine.board_keys ht']
        exact not_mem_keys_of_ne hm.coherent (hmine n hn) hne
      · rw [← Machine.board_stage ht']
        exact stage_ne_leave hm.coherent (hmine n hn)

theorem orderly_of_eq (hsame : w.cells = m.world.cells) (k : I.Key) :
    Orderly D h m.world w k :=
  .inl (by rw [World.state?, hsame, World.state?])

/-- A step that makes no notes and leaves the slots and the shared state alone. -/
theorem Governed.of_quiet (hlawful : D.Lawful) (hm : D.Governed P m h)
    (hthread : m.threads[t]? = some thread)
    (hmove : m.board.Step t (⟨m.threads.set t thread', w⟩ : Machine I σ α).board)
    (hshared : w.shared = m.world.shared) (hslots : ∀ k, Orderly D h m.world w k)
    (hsafe : D.ThreadSafe (P t) h thread') : D.Governed P ⟨m.threads.set t thread', w⟩ h := by
  have hgoverned := hm.of_step (l := []) hlawful hthread hmove nofun
    (by rw [List.append_nil, hshared]; exact hm.inv) (by rwa [List.append_nil])
    (by rwa [List.append_nil])
  rwa [List.append_nil] at hgoverned

theorem Governed.later (hm : D.Governed P m h) (hwithin : D.within m.world.shared)
    (goal : Goal I.Key) : D.Later goal h h m.world.shared :=
  ⟨.refl goal h, hm.inv, hwithin⟩

/-- What a settled slot answers is what the discipline says of it. -/
theorem Governed.answers (hm : D.Governed P m h) {k : I.Key} {result : Result I (I.Value k)}
    (hanswer : Thread.answer? m.world k = some result) : D.Answers h k result := by
  unfold Thread.answer? at hanswer
  split at hanswer
  · next owner finished v sleepers hcell =>
    obtain rfl := Option.some.inj hanswer
    exact hm.ready k v (by rw [World.state?, hcell]; rfl)
  · next owner finished sleepers hcell =>
    obtain rfl := Option.some.inj hanswer
    exact hm.failed k (by rw [World.state?, hcell]; rfl)
  · cases hanswer

/-- What a factory ends with is what its end is published with. -/
theorem Governed.finish (hlawful : D.Lawful) (hm : D.Governed P m h) {goal : Goal I.Key} {k : I.Key}
    {task : Task I (I.Value k)} {next : Result I (I.Value k) → Task I (goal.Value I α)}
    {rest : Frames I α goal} {ending : Option (Result I (I.Value k))}
    (hthread : m.threads[t]? = some ⟨.construct k, .run task, .enclosed k next rest⟩)
    (htask : task = ending.elim .panic .done) :
    D.Governed P ⟨m.threads.set t ⟨.construct k, .publish ending, .enclosed k next rest⟩,
      m.world.finish k⟩ h := by
  have hsafe := hm.threads t _ hthread
  have hcontrol : D.Safe (.construct k) h task (D.Ends (P t) (.construct k)) := hsafe.control
  refine hm.of_quiet hlawful hthread (Machine.board_finish hthread ending)
    (World.shared_modifyCell _ _ _) (fun k' => .inl (World.state?_finish m.world k k'))
    ⟨fun h' s hlater => ?_, hsafe.frames⟩
  subst htask
  cases ending with
  | none => exact absurd hlater (hcontrol h' s)
  | some result => exact ⟨result, rfl, hcontrol h' s hlater⟩

/-- A task that acts makes its notes. -/
theorem Governed.act (hlawful : D.Lawful) (hm : D.Governed P m h) {goal : Goal I.Key}
    {frames : Frames I α goal} {action : I.Action} {next : I.Answer action → Task I (goal.Value I α)}
    (hthread : m.threads[t]? = some ⟨goal, .run (.act action next), frames⟩)
    (hwithin : D.within (D.recipes.act action m.world.shared).2) :
    ∃ l, D.Governed P ⟨m.threads.set t
      ⟨goal, .run (next (D.recipes.act action m.world.shared).1), frames⟩,
      { m.world with shared := (D.recipes.act action m.world.shared).2 }⟩ (h ++ l) := by
  have hsafe := hm.threads t _ hthread
  have hcontrol : D.Safe goal h (.act action next) (D.Ends (P t) goal) := hsafe.control
  have hbefore := hlawful.within_of_act action _ hwithin
  obtain ⟨l, hown, hinv, hnext⟩ := hcontrol h _ (hm.later hbefore goal) hwithin
  have hmove := Machine.board_stepsTo hthread (.act : Thread.StepsTo D.recipes t m.world _ _ _)
  refine ⟨l, hm.of_step hlawful hthread hmove hown hinv (orderly_of_eq rfl) ⟨hnext, ?_⟩⟩
  have hnodup : frames.keys.Nodup := by
    have := hm.coherent.nodup t
    rwa [Machine.board_keys hthread] at this
  exact hsafe.frames.append fun n hn => Frames.not_mem_tail frames (hown n hn) hnodup

/-- What a task asks for is known, and it goes on safely with any answer. -/
theorem Governed.resumes (hlawful : D.Lawful) (hm : D.Governed P m h) {goal : Goal I.Key}
    {frames : Frames I α goal} {r : I.Request}
    {next : Result I (I.Value (I.key r)) → Task I (goal.Value I α)}
    (hthread : m.threads[t]? = some ⟨goal, .run (.request r next), frames⟩)
    (hwithin : D.within m.world.shared) (hvouched : D.trusted → D.Vouches m t h) :
    D.known h (I.key r) ∧ D.Resumes goal h (I.key r) next (D.Ends (P t) goal) := by
  have hcontrol : D.Safe goal h (.request r next) (D.Ends (P t) goal) := (hm.threads t _ hthread).control
  have hasked : D.Vouched goal h (I.key r) := fun htrusted htop => by
    subst htop
    exact hvouched htrusted _ (by rw [Machine.asking?, hthread]; rfl)
  obtain ⟨hknown, hallowed, -⟩ := hcontrol h _ (hm.later hwithin goal) hasked
  exact ⟨hknown, hallowed, fun h' s hlater =>
    (hcontrol h' s hlater (hasked.later hlawful hlater.relies)).2.2⟩

/-- A construction that begins is safe, since nothing has been noted for its key. -/
theorem Governed.begins (hlawful : D.Lawful) (hm : D.Governed P m h) {goal : Goal I.Key}
    {frames : Frames I α goal} {r : I.Request}
    {next : Result I (I.Value (I.key r)) → Task I (goal.Value I α)}
    (hthread : m.threads[t]? = some ⟨goal, .run (.request r next), frames⟩)
    (hfree : m.world.cells.get? (I.key r) = none) (hknown : D.known h (I.key r))
    (hresumes : D.Resumes goal h (I.key r) next (D.Ends (P t) goal)) :
    D.Governed P ⟨m.threads.set t ⟨.construct (I.key r), .run (D.recipes.factory r),
      .enclosed (I.key r) next frames⟩, m.world.install t (I.key r)⟩ h := by
  have hnew : ∀ n ∈ h, n.1 ≠ I.key r := by
    intro n hn heq
    have hnoted := hm.noted n hn
    rw [heq, World.state?, hfree] at hnoted
    cases hnoted
  refine hm.of_quiet hlawful hthread (Machine.board_begins hthread hfree) rfl (fun k => ?_)
    ⟨hlawful.factory r h hknown hnew, hresumes, (hm.threads t _ hthread).frames⟩
  by_cases hk : k = I.key r
  · subst hk
    refine .inr ⟨?_, hknown, fun v hv => ?_, fun hfailed => ?_⟩
    · rw [World.state?_install]
      rfl
    · rw [World.state?_install] at hv
      cases hv
    · rw [World.state?_install] at hfailed
      cases hfailed
  · exact .inl (World.state?_install_of_ne hk _ _)

/-! ## Waiting -/

theorem FramesSafe.heeds {frames : Frames I α goal} (hsafe : D.FramesSafe Q h frames) :
    frames.Heeds D.Allows := by
  induction frames with
  | base => trivial
  | enclosed k next rest ih => exact ⟨hsafe.1.allowed, ih hsafe.2⟩

theorem ThreadSafe.heeds (hsafe : D.ThreadSafe Q h thread) : thread.Heeds D.Allows := by
  refine ⟨hsafe.frames.heeds, fun k hk => ?_⟩
  obtain ⟨goal, control, frames⟩ := thread
  have hcontrol := hsafe.control
  cases control with
  | run task => cases hk
  | publish ending => cases hk
  | wait k' phase next =>
    obtain rfl := Option.some.inj hk
    exact hcontrol.allowed
  | leave k' result next =>
    obtain rfl := Option.some.inj hk
    exact hcontrol.2.allowed

/-- Whatever a construction waits for, it needs. -/
theorem Governed.needs_of_awaits (hm : D.Governed P m h) {outer inner : I.Key}
    (hawaits : m.board.Awaits outer inner) : D.needs outer inner :=
  Machine.relates_of_awaits (fun t thread hthread => (hm.threads t thread hthread).heeds) hawaits

/-- Waiting leaves the shared state alone, and all slots in their states. -/
theorem state?_of_waitsTo {k : I.Key} {phase : Phase}
    {next : Result I (I.Value k) → Task I (goal.Value I α)} {control : Control I α goal}
    (hwait : Thread.WaitsTo t m.world k next phase control w) :
    w.shared = m.world.shared ∧ ∀ k', w.state? k' = m.world.state? k' := by
  cases hwait with
  | doze => exact ⟨World.shared_modifyCell _ _ _, World.state?_sleep _ _ _⟩
  | _ => exact ⟨rfl, fun _ => rfl⟩

/-- A waiting thread keeps to the discipline; in particular, what it refuses has to fail. -/
theorem Governed.waitsTo (hlawful : D.Lawful) (hm : D.Governed P m h) {goal : Goal I.Key}
    {frames : Frames I α goal} {k : I.Key} {phase : Phase}
    {next : Result I (I.Value k) → Task I (goal.Value I α)} {control : Control I α goal}
    (hthread : m.threads[t]? = some ⟨goal, .wait k phase next, frames⟩)
    (hwait : Thread.WaitsTo t m.world k next phase control w) (hwithin : D.within m.world.shared) :
    D.Governed P ⟨m.threads.set t ⟨goal, control, frames⟩, w⟩ h := by
  have hsafe := hm.threads t _ hthread
  have hresumes : D.Resumes goal h k next (D.Ends (P t) goal) := hsafe.control
  obtain ⟨hshared, hslots⟩ := state?_of_waitsTo hwait
  refine hm.of_quiet hlawful hthread (Machine.board_waitsTo hthread hwait) hshared
    (fun k' => .inl (hslots k')) ⟨?_, hsafe.frames⟩
  cases hwait with
  | answer hanswer => exact hresumes.safe h _ (hm.later hwithin goal) _ (hm.answers hanswer)
  | wake hanswer => exact ⟨hm.answers hanswer, hresumes⟩
  | refuse =>
    -- To be refused the thread has followed a chain of waits back to itself.
    have hcycle : TransGen m.board.Awaits k k :=
      Board.awaits_of_refused hm.coherent hm.chased (Machine.board_stage hthread)
    have hfails : D.fails k := hlawful.fails_of_cycle k
      (TransGen.mono (fun _ _ => hm.needs_of_awaits) _ _ hcycle)
    exact hresumes.safe h _ (hm.later hwithin goal) _ hfails
  | _ => exact hresumes

/-- The end of a construction is published as the discipline says. -/
theorem Governed.publish (hlawful : D.Lawful) (hm : D.Governed P m h) {goal : Goal I.Key} {k : I.Key}
    {next : Result I (I.Value k) → Task I (goal.Value I α)} {rest : Frames I α goal}
    {ending : Option (Result I (I.Value k))}
    (hthread : m.threads[t]? = some ⟨.construct k, .publish ending, .enclosed k next rest⟩)
    (hwithin : D.within m.world.shared) :
    D.Governed P ⟨m.threads.set t ⟨goal, .run (ending.elim .panic next), rest⟩,
      m.world.settle k (Thread.endingState ending)⟩ h := by
  have hsafe := hm.threads t _ hthread
  have hkey : k ∈ m.board.keys t := by
    rw [Machine.board_keys hthread]
    exact List.mem_cons_self
  have hopen := building_of_mem_keys hm.coherent hkey
  -- What the construction ends with was promised when its task began, as it was safe.
  have hcontrol : ∃ r : Result I (I.Value k), ending = some r ∧ D.Concludes h k r :=
    hsafe.control h _ (hm.later hwithin _)
  obtain ⟨result, rfl, hends⟩ := hcontrol
  refine hm.of_quiet hlawful hthread (Machine.board_publish hthread) (World.shared_modifyCell _ _ _)
    (fun k' => ?_) ⟨?_, hsafe.frames.2⟩
  · by_cases hk : k' = k
    · subst hk
      have hsome : (m.world.state? k').isSome := by rw [hopen]; rfl
      rw [Orderly, World.state?_settle _ hsome]
      refine .inr ⟨rfl, hm.known k' hsome, fun v hv => ?_, fun hfailed => ?_⟩
      · cases result with
        | ok v' =>
          obtain rfl : v' = v := by simpa [Thread.endingState, SlotState.ofResult] using hv
          exact hends
        | error e => simp [Thread.endingState, SlotState.ofResult] at hv
      · cases result with
        | ok v' => simp [Thread.endingState, SlotState.ofResult] at hfailed
        | error e => exact hends
    · exact .inl (World.state?_settle_of_ne hk _ _)
  · exact hsafe.frames.1.safe h _ (hm.later hwithin _) result hends.answers

/-! ## All steps -/

/-- The limits on the shared state only ever tighten. -/
theorem within_of_stepsTo (hlawful : D.Lawful) (hstep : thread.StepsTo D.recipes t m.world thread' w)
    (hwithin : D.within w.shared) : D.within m.world.shared := by
  cases hstep with
  | act => exact hlawful.within_of_act _ _ hwithin
  | finish => rwa [World.finish, World.shared_modifyCell] at hwithin
  | wait hwait => rwa [← (state?_of_waitsTo hwait).1]
  | publish => rwa [World.settle, World.shared_modifyCell] at hwithin
  | _ => exact hwithin

/-- A lawful discipline is kept by every step, if a thread that is trusted asks for a known key. -/
theorem Governed.step (hlawful : D.Lawful) (hm : D.Governed P m h) {m' : Machine I σ α}
    (hstep : m.step D.recipes t = some m') (hwithin : D.within m'.world.shared)
    (hvouched : D.trusted → D.Vouches m t h) :
    ∃ l, D.Governed P m' (h ++ l) := by
  obtain ⟨thread, thread', w, hthread, hnext, rfl⟩ := Machine.stepsTo_of_step hstep
  have hbefore := within_of_stepsTo hlawful hnext hwithin
  have hsafe := hm.threads t _ hthread
  -- Only an action makes notes.
  have hquiet : D.Governed P ⟨m.threads.set t thread', w⟩ h →
      ∃ l, D.Governed P ⟨m.threads.set t thread', w⟩ (h ++ l) := fun hdone => ⟨[], by simpa⟩
  cases hnext with
  | act => exact hm.act hlawful hthread hwithin
  | peek => exact absurd (hm.later hbefore _) (hsafe.control h _)
  | arrive =>
    obtain ⟨-, hresumes⟩ := hm.resumes hlawful hthread hbefore hvouched
    exact hquiet (hm.of_quiet hlawful hthread (Machine.board_step hstep) rfl (orderly_of_eq rfl)
      ⟨hresumes, hsafe.frames⟩)
  | begins hfree =>
    obtain ⟨hknown, hresumes⟩ := hm.resumes hlawful hthread hbefore hvouched
    exact hquiet (hm.begins hlawful hthread hfree hknown hresumes)
  | finish htask => exact hquiet (hm.finish hlawful hthread htask)
  | wait hwait => exact hquiet (hm.waitsTo hlawful hthread hwait hbefore)
  | @leave goal frames k result next =>
    obtain ⟨hanswer, hresumes⟩ := hsafe.control
    exact hquiet (hm.of_quiet hlawful hthread (Machine.board_step hstep) rfl (orderly_of_eq rfl)
      ⟨hresumes.safe h _ (hm.later hbefore goal) result hanswer, hsafe.frames⟩)
  | publish => exact hquiet (hm.publish hlawful hthread hbefore)

theorem within_of_step (hlawful : D.Lawful) {m' : Machine I σ α}
    (hstep : m.step D.recipes t = some m') (hwithin : D.within m'.world.shared) :
    D.within m.world.shared := by
  obtain ⟨thread, thread', w, -, hnext, rfl⟩ := Machine.stepsTo_of_step hstep
  exact within_of_stepsTo hlawful hnext hwithin

theorem within_of_follow (hlawful : D.Lawful) (schedule : List ThreadId) {m : Machine I σ α}
    (hwithin : D.within (m.follow D.recipes schedule).world.shared) :
    D.within m.world.shared := by
  induction schedule generalizing m with
  | nil => exact hwithin
  | cons t schedule ih =>
    have hnext := ih hwithin
    cases hstep : m.step D.recipes t with
    | none => rwa [hstep] at hnext
    | some m' =>
      rw [hstep] at hnext
      exact within_of_step hlawful hstep hnext

/-- A lawful discipline is kept under every schedule that does not exceed the limits, if threads that are
trusted ask for known keys whenever they take a step. -/
theorem Governed.follow (hlawful : D.Lawful) (schedule : List ThreadId) {m : Machine I σ α}
    {h : List (I.Key × ν)} (hm : D.Governed P m h)
    (hwithin : D.within (m.follow D.recipes schedule).world.shared)
    (hvouched : D.trusted → ∀ before t, before ++ [t] <+: schedule → ∀ h,
      D.Governed P (m.follow D.recipes before) h → D.Vouches (m.follow D.recipes before) t h :=
        by exact fun htrusted => False.elim htrusted) :
    ∃ l, D.Governed P (m.follow D.recipes schedule) (h ++ l) := by
  induction schedule generalizing m h with
  | nil => exact ⟨[], by simpa⟩
  | cons t schedule ih =>
    rw [Machine.follow] at hwithin ⊢
    have hnext : D.trusted → ∀ before t', before ++ [t'] <+: schedule → ∀ h,
        D.Governed P (((m.step D.recipes t).getD m).follow D.recipes before) h →
          D.Vouches (((m.step D.recipes t).getD m).follow D.recipes before) t' h :=
      fun htrusted before t' hbefore =>
        hvouched htrusted (t :: before) t' (List.cons_prefix_cons.mpr ⟨rfl, hbefore⟩)
    cases hstep : m.step D.recipes t with
    | none =>
      rw [hstep] at hwithin hnext
      exact ih hm hwithin hnext
    | some m' =>
      rw [hstep] at hwithin hnext
      obtain ⟨l, hm'⟩ := hm.step hlawful hstep (within_of_follow hlawful schedule hwithin)
        fun htrusted => hvouched htrusted [] t (List.cons_prefix_cons.mpr ⟨rfl, List.nil_prefix⟩) h hm
      obtain ⟨l', hend⟩ := ih hm' hwithin hnext
      exact ⟨l ++ l', by rwa [← List.append_assoc]⟩

/-- A machine whose threads are about to run safe tasks is governed. -/
theorem Governed.start {tasks : List (Task I α)} {shared : σ} (hinv : D.inv [] shared)
    (hsafe : ∀ (t : ThreadId) task, tasks[t]? = some task → D.Safe .top [] task (P t)) :
    D.Governed P (Machine.start tasks shared) [] := by
  refine ⟨Machine.coherent_start tasks shared, Machine.chased_start tasks shared, hinv, nofun, nofun,
    nofun, nofun, nofun, ?_⟩
  intro t thread hthread
  rw [Machine.start, List.getElem?_map] at hthread
  obtain ⟨task, htask, rfl⟩ := Option.map_eq_some_iff.mp hthread
  exact ⟨hsafe t task htask, trivial⟩

end Discipline

end ShaderLowering.Construction
