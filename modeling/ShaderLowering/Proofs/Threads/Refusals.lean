import ShaderLowering.Construction.Race
import ShaderLowering.Proofs.Threads.Agreement

/-!
# Refusals are founded

A request that is refused on account of a cycle asks for a construction that requires the very
construction that makes the request: there is a sequence of constructions in flight, from the key that
is asked for to the innermost construction of the thread that asks, each of whose factories is running
the request for the next one (`Recorded.required`).

Such a sequence is a path of the relation "the factory of one key requests another key"
(`FactoryRequests`), because whatever is running was requested by a factory that was offered for its
key (`KeepsTo.allowed`).  So where that relation has no cycle, no request is refused under any schedule
(`KeepsTo.not_refused`), and if no task makes up a cycle of its own, nothing ends with one.
-/

namespace ShaderLowering.Construction

open Relation (ReflTransGen TransGen)

variable {I : Interface} {σ α β : Type}

namespace Task

/-- A task makes a request, if it is given the right answers on the way. -/
inductive Requests : Task I β → I.Request → Prop
  | now {r : I.Request} {next : Result I (I.Value (I.key r)) → Task I β} :
      Requests (.request r next) r
  | later {r r' : I.Request} {next : Result I (I.Value (I.key r)) → Task I β}
      {result : Result I (I.Value (I.key r))} (h : Requests (next result) r') :
      Requests (.request r next) r'
  | act {action : I.Action} {next : I.Answer action → Task I β} {answer : I.Answer action}
      {r : I.Request} (h : Requests (next answer) r) : Requests (.act action next) r
  | peek {k : I.Key} {next : Option (I.Value k) → Task I β} {value : Option (I.Value k)}
      {r : I.Request} (h : Requests (next value) r) : Requests (.peek k next) r

/-- A task that only asks for an entity makes that request and no other. -/
theorem eq_of_requests_ask {r r' : I.Request} (h : (ask r).Requests r') : r' = r := by
  cases h with
  | now => rfl
  | later h => cases h

/-- A result that is not a cycle. -/
def NoCycle (result : Result I β) : Prop :=
  ∀ k, result ≠ .error (.cyclic k)

/-- A task that is not answered with a cycle does not end with one. -/
def Faithful : Task I β → Prop
  | .done result => NoCycle result
  | .panic => True
  | .act _ next => ∀ answer, (next answer).Faithful
  | .peek _ next => ∀ value, (next value).Faithful
  | .request _ next => ∀ result, NoCycle result → (next result).Faithful

theorem faithful_ask (r : I.Request) : (ask r).Faithful :=
  fun _ hresult => hresult

end Task

/-- The requests that may be made in a run of tasks: by the tasks, and by factories that requests
offer. -/
inductive Offered (recipes : Recipes I σ) (tasks : List (Task I α)) : I.Request → Prop
  | task {task : Task I α} {r : I.Request} (hmem : task ∈ tasks) (hrequests : task.Requests r) :
      Offered recipes tasks r
  | factory {r r' : I.Request} (hoffered : Offered recipes tasks r)
      (hrequests : (recipes.factory r).Requests r') : Offered recipes tasks r'

/-- In a run of tasks, the factory of one key may request another key. -/
def FactoryRequests (recipes : Recipes I σ) (tasks : List (Task I α)) (outer inner : I.Key) : Prop :=
  ∃ r r', Offered recipes tasks r ∧ I.key r = outer ∧ (recipes.factory r).Requests r' ∧
    I.key r' = inner

/-- What holds of refusals at every moment of every run of tasks. -/
structure RefusalsFounded (recipes : Recipes I σ) (tasks : List (Task I α)) (log : List (Event I))
    (m : Machine I σ α) : Prop where
  /-- A request that is about to be answered with a cycle names the key that it asks for.  That key is
  under construction, and its construction requires the construction that makes the request. -/
  required : ∀ t k k', m.event? t = some (.answers t k (.error (.cyclic k'))) →
    k' = k ∧ m.board.stage t = .wait k (.chase t) ∧ m.board.Unfinished k ∧
      ∃ outer, (m.board.keys t).head? = some outer ∧ ReflTransGen m.board.Requires k outer
  /-- If no key is requested by its own factory, directly or through others, no request has been
  answered with a cycle. -/
  unrefused : (∀ k, ¬TransGen (FactoryRequests recipes tasks) k k) →
    ∀ t k k', .answers t k (.error (.cyclic k')) ∉ log
  /-- If moreover no task makes up a cycle, no construction and no task has ended with one. -/
  acyclic : (∀ k, ¬TransGen (FactoryRequests recipes tasks) k k) →
    (∀ task ∈ tasks, task.Faithful) → (∀ r, Offered recipes tasks r → (recipes.factory r).Faithful) →
    (∀ t k k', .ends t k (some (.error (.cyclic k'))) ∉ log) ∧
      ∀ (t : ThreadId) thread k', m.threads[t]? = some thread →
        thread.ending? ≠ some (some (.error (.cyclic k')))

/-! ## Refusals -/

theorem Machine.chased_follow (recipes : Recipes I σ) (tasks : List (Task I α)) (shared : σ)
    (schedule : List ThreadId) :
    ((start tasks shared).follow recipes schedule : Machine I σ α).board.Chased :=
  (follow_preserves (P := fun m => m.board.Coherent ∧ m.board.Chased)
    (fun _ _ _ hbefore hstep => ⟨hbefore.1.step (board_step hstep),
      Board.chased_step hbefore.1 hbefore.2 (board_step hstep)⟩)
    ⟨coherent_start tasks shared, chased_start tasks shared⟩ schedule).2

theorem Thread.noCycle_of_answer? {w : World I σ} {k : I.Key} {result : Result I (I.Value k)}
    (hanswer : answer? w k = some result) : Task.NoCycle result := by
  rintro k' rfl
  rw [answer?_eq] at hanswer
  obtain ⟨state, -, hstate⟩ := Option.bind_eq_some_iff.mp hanswer
  cases state <;> cases hstate

namespace Recorded

variable {log : List (Event I)} {m : Machine I σ α} {t u : ThreadId} {k k' : I.Key}

/-- Only a thread that has followed a chain of waits to itself is answered with a cycle. -/
theorem stage_of_refused (h : Recorded log m)
    (hevent : m.event? u = some (.answers t k (.error (.cyclic k')))) :
    u = t ∧ k' = k ∧ m.board.stage u = .wait k (.chase u) := by
  obtain ⟨⟨goal, control, frames⟩, hthread, hcontrol⟩ := Option.bind_eq_some_iff.mp hevent
  rw [Machine.board_stage hthread]
  -- What a slot answers is never a cycle: it is a value or the poisoned key.
  have hanswered : ∀ {k₀ : I.Key} {result : Result I (I.Value k₀)},
      Thread.answer? m.world k₀ = some result →
      Event.answers u k₀ result ≠ .answers t k (.error (.cyclic k')) := by
    intro k₀ result hanswer heq
    obtain ⟨-, rfl, hresult⟩ := Event.answers.inj heq
    exact Thread.noCycle_of_answer? hanswer k' (eq_of_heq hresult)
  cases control with
  | run task =>
    cases task with
    | request r next =>
      simp only [Control.event?] at hcontrol
      split at hcontrol <;> cases hcontrol
    | _ => cases hcontrol
  | wait k₀ phase next =>
    cases phase with
    | inspect =>
      obtain ⟨result, hanswer, heq⟩ := Option.map_eq_some_iff.mp hcontrol
      exact absurd heq (hanswered hanswer)
    | chase owner =>
      simp only [Control.event?] at hcontrol
      split at hcontrol
      · next hself =>
        obtain ⟨rfl, rfl, hresult⟩ := Event.answers.inj (Option.some.inj hcontrol)
        obtain rfl := Failure.cyclic.inj (Except.error.inj (eq_of_heq hresult))
        exact ⟨rfl, rfl, by rw [hself]; rfl⟩
      · cases hcontrol
    | _ => cases hcontrol
  | leave k₀ result next =>
    exact absurd (Option.some.inj hcontrol)
      (hanswered (h.leaving u goal k₀ result next frames hthread))
  | publish ending => cases goal <;> cases hcontrol

/-- A request that is about to be refused asks for a construction that requires the one that makes the
request. -/
theorem required (h : Recorded log m) (hchased : m.board.Chased)
    (hevent : m.event? t = some (.answers t k (.error (.cyclic k')))) :
    k' = k ∧ m.board.stage t = .wait k (.chase t) ∧ m.board.Unfinished k ∧
      ∃ outer, (m.board.keys t).head? = some outer ∧ ReflTransGen m.board.Requires k outer := by
  obtain ⟨-, hkey, hstage⟩ := h.stage_of_refused hevent
  exact ⟨hkey, hstage, Board.requires_of_refused h.coherent hchased hstage⟩

end Recorded

/-! ## What tasks request -/

section KeepsTo

variable (recipes : Recipes I σ) (tasks : List (Task I α)) (honest : Prop)

/-- A task for a goal may request a key. -/
def Goal.MayRequest : Goal I.Key → I.Key → Prop
  | .top, _ => True
  | .construct outer, inner => FactoryRequests recipes tasks outer inner

/-- If tasks are honest, a result is not a cycle. -/
def Fair (result : Result I β) : Prop :=
  honest → Task.NoCycle result

/-- What a task for a goal keeps to: it makes requests that are offered for keys that it may request,
and if tasks are honest it makes up no cycle. -/
structure TaskKeeps (goal : Goal I.Key) (task : Task I (goal.Value I α)) : Prop where
  offered : ∀ r, task.Requests r → Offered recipes tasks r
  allowed : ∀ r, task.Requests r → goal.MayRequest recipes tasks (I.key r)
  faithful : honest → task.Faithful

/-- A task for a goal that has requested a key keeps to it with every answer that it may get. -/
structure NextKeeps (goal : Goal I.Key) (k : I.Key)
    (next : Result I (I.Value k) → Task I (goal.Value I α)) : Prop where
  allowed : goal.MayRequest recipes tasks k
  keeps : ∀ result, Fair honest result → TaskKeeps recipes tasks honest goal (next result)

/-- What a thread does next keeps to it. -/
def ControlKeeps (goal : Goal I.Key) : Control I α goal → Prop
  | .run task => TaskKeeps recipes tasks honest goal task
  | .wait k _ next => NextKeeps recipes tasks honest goal k next
  | .leave k result next => Fair honest result ∧ NextKeeps recipes tasks honest goal k next
  | .publish ending => ∀ result, ending = some result → Fair honest result

/-- The constructions around the running task keep to it. -/
def FramesKeep : {goal : Goal I.Key} → Frames I α goal → Prop
  | _, .base => True
  | _, @Frames.enclosed _ _ goal k next rest =>
    NextKeeps recipes tasks honest goal k next ∧ FramesKeep rest

/-- A thread keeps to it. -/
structure KeepsTo (thread : Thread I α) : Prop where
  control : ControlKeeps recipes tasks honest thread.goal thread.control
  frames : FramesKeep recipes tasks honest thread.frames

end KeepsTo

section Moves

variable {recipes : Recipes I σ} {tasks : List (Task I α)} {honest : Prop} {t : ThreadId}
  {w w' : World I σ} {goal : Goal I.Key} {thread thread' : Thread I α} {event : Option (Event I)}

theorem TaskKeeps.next_of_request {r : I.Request}
    {next : Result I (I.Value (I.key r)) → Task I (goal.Value I α)}
    (h : TaskKeeps recipes tasks honest goal (.request r next)) :
    NextKeeps recipes tasks honest goal (I.key r) next :=
  ⟨h.allowed r .now, fun result hfair => ⟨fun r' hr => h.offered r' (.later hr),
    fun r' hr => h.allowed r' (.later hr), fun hhonest => h.faithful hhonest result (hfair hhonest)⟩⟩

theorem TaskKeeps.panic : TaskKeeps recipes tasks honest goal (.panic : Task I (goal.Value I α)) :=
  ⟨nofun, nofun, fun _ => trivial⟩

/-- A factory that a request offers keeps to it. -/
theorem TaskKeeps.factory (hhonest : honest → ∀ r, Offered recipes tasks r → (recipes.factory r).Faithful)
    {r : I.Request} (hoffered : Offered recipes tasks r) :
    TaskKeeps recipes tasks honest (.construct (I.key r)) (recipes.factory r) :=
  ⟨fun _ hr => .factory hoffered hr, fun r' hr => ⟨r, r', hoffered, rfl, hr, rfl⟩,
    fun h => hhonest h r hoffered⟩

theorem NextKeeps.of_pending {control : Control I α goal} {k : I.Key}
    {next : Result I (I.Value k) → Task I (goal.Value I α)} (hpending : control.Pending k next)
    (h : ControlKeeps recipes tasks honest goal control) :
    NextKeeps recipes tasks honest goal k next := by
  rcases hpending with ⟨phase, rfl⟩ | ⟨result, rfl⟩
  · exact h
  · exact h.2

/-- As long as no request is refused, every move of a thread keeps to it. -/
theorem KeepsTo.move (hhonest : honest → ∀ r, Offered recipes tasks r → (recipes.factory r).Faithful)
    (h : KeepsTo recipes tasks honest thread)
    (hmove : Thread.Move recipes t w thread event thread' w')
    (hrefused : ∀ k k', event ≠ some (.answers t k (.error (.cyclic k')))) :
    KeepsTo recipes tasks honest thread' := by
  obtain ⟨hcontrol, hframes⟩ := h
  cases hmove with
  | act =>
    exact ⟨⟨fun r hr => hcontrol.offered r (.act hr), fun r hr => hcontrol.allowed r (.act hr),
      fun h => hcontrol.faithful h _⟩, hframes⟩
  | peek =>
    exact ⟨⟨fun r hr => hcontrol.offered r (.peek hr), fun r hr => hcontrol.allowed r (.peek hr),
      fun h => hcontrol.faithful h _⟩, hframes⟩
  | begins =>
    exact ⟨.factory hhonest (hcontrol.offered _ .now), hcontrol.next_of_request, hframes⟩
  | arrive => exact ⟨hcontrol.next_of_request, hframes⟩
  | wait hpending hpending' hleave =>
    have hnext := NextKeeps.of_pending hpending hcontrol
    refine ⟨?_, hframes⟩
    rcases hpending' with ⟨phase, rfl⟩ | ⟨result, rfl⟩
    · exact hnext
    · exact ⟨fun _ => Thread.noCycle_of_answer? (hleave result rfl), hnext⟩
  | @answers goal frames control k next result w' hpending hresult =>
    have hnext := NextKeeps.of_pending hpending hcontrol
    refine ⟨hnext.keeps _ ?_, hframes⟩
    rcases hresult with rfl | hanswer | rfl
    · exact absurd rfl (hrefused k k)
    · exact fun _ => Thread.noCycle_of_answer? hanswer
    · exact hcontrol.1
  | @finish goal k task next rest ending htask =>
    refine ⟨?_, hframes⟩
    intro result hending hhonest
    have hfaithful : task.Faithful := hcontrol.faithful hhonest
    rwa [htask, hending] at hfaithful
  | @ends goal k next rest ending =>
    refine ⟨?_, hframes.2⟩
    cases ending with
    | none => exact .panic
    | some result => exact hframes.1.keeps result (hcontrol result rfl)

theorem FramesKeep.heeds {frames : Frames I α goal} (h : FramesKeep recipes tasks honest frames) :
    frames.Heeds (Goal.MayRequest recipes tasks) := by
  induction frames with
  | base => trivial
  | enclosed k next rest ih => exact ⟨h.1.allowed, ih h.2⟩

theorem KeepsTo.heeds (h : KeepsTo recipes tasks honest thread) :
    thread.Heeds (Goal.MayRequest recipes tasks) := by
  refine ⟨h.frames.heeds, fun k hk => ?_⟩
  obtain ⟨goal, control, frames⟩ := thread
  have hcontrol := h.control
  cases control with
  | run task => cases hk
  | publish ending => cases hk
  | wait k' phase next =>
    obtain rfl := Option.some.inj hk
    exact hcontrol.allowed
  | leave k' result next =>
    obtain rfl := Option.some.inj hk
    exact hcontrol.2.allowed

/-- A construction ends with no cycle, if tasks are honest. -/
theorem KeepsTo.fair_of_ends (h : KeepsTo recipes tasks honest thread) {u : ThreadId} {k : I.Key}
    {result : Result I (I.Value k)}
    (hmove : Thread.Move recipes t w thread (some (.ends u k (some result))) thread' w') :
    Fair honest result := by
  cases hmove with
  | ends => exact h.control result rfl

/-- A task ends with no cycle, if tasks are honest. -/
theorem KeepsTo.fair_of_ending (h : KeepsTo recipes tasks honest thread) {result : Result I α}
    (hending : thread.ending? = some (some result)) : Fair honest result := by
  obtain rfl := Thread.eq_ended hending
  exact h.control.faithful

end Moves

/-! ## Runs without refusals -/

/-- What a run preserves where no key is requested by its own factory: threads keep to what they may
request, and the log has no cycles. -/
structure Unrefused (recipes : Recipes I σ) (tasks : List (Task I α)) (honest : Prop)
    (log : List (Event I)) (m : Machine I σ α) : Prop where
  recorded : Recorded log m
  chased : m.board.Chased
  keeps : ∀ (t : ThreadId) thread, m.threads[t]? = some thread → KeepsTo recipes tasks honest thread
  answers : ∀ t k k', .answers t k (.error (.cyclic k')) ∉ log
  ends : honest → ∀ t k k', .ends t k (some (.error (.cyclic k'))) ∉ log

namespace Unrefused

variable {recipes : Recipes I σ} {tasks : List (Task I α)} {honest : Prop} {log : List (Event I)}
  {m m' : Machine I σ α} {t u : ThreadId}

/-- What is refused requires itself, and then its factory requests it. -/
theorem not_refused (h : Unrefused recipes tasks honest log m)
    (hacyclic : ∀ k, ¬TransGen (FactoryRequests recipes tasks) k k) (k k' : I.Key) :
    m.event? u ≠ some (.answers t k (.error (.cyclic k'))) := by
  intro hevent
  obtain ⟨-, -, hstage⟩ := h.recorded.stage_of_refused hevent
  have hcycle := Board.awaits_of_refused h.recorded.coherent h.chased hstage
  refine hacyclic k (TransGen.mono (fun outer inner hawaits => ?_) _ _ hcycle)
  exact Machine.relates_of_awaits (fun t thread hthread => (h.keeps t thread hthread).heeds) hawaits

theorem step (hhonest : honest → ∀ r, Offered recipes tasks r → (recipes.factory r).Faithful)
    (hacyclic : ∀ k, ¬TransGen (FactoryRequests recipes tasks) k k)
    (h : Unrefused recipes tasks honest log m) (hstep : m.step recipes t = some m') :
    Unrefused recipes tasks honest (log ++ (m.event? t).toList) m' := by
  have hboard := Machine.board_step hstep
  have hnew : ∀ e, e ∈ log ++ (m.event? t).toList → e ∈ log ∨ m.event? t = some e := fun e he =>
    (List.mem_append.mp he).imp_right Option.mem_toList.mp
  refine ⟨h.recorded.step hstep, Board.chased_step h.recorded.coherent h.chased hboard, ?_, ?_, ?_⟩
  · intro u thread hthread
    by_cases hne : u = t
    case neg =>
      rw [Machine.threads_step_of_ne hstep hne] at hthread
      exact h.keeps u thread hthread
    subst hne
    obtain ⟨before, after, w, hbefore, hmove, rfl⟩ := Machine.move_of_step hstep
    rw [Machine.threads_set_self hbefore] at hthread
    obtain rfl := Option.some.inj hthread
    exact (h.keeps u before hbefore).move hhonest hmove fun k k' => h.not_refused hacyclic k k'
  · intro u k k' hmem
    rcases hnew _ hmem with hold | hevent
    · exact h.answers u k k' hold
    · exact h.not_refused hacyclic k k' hevent
  · intro hh u k k' hmem
    rcases hnew _ hmem with hold | hevent
    · exact h.ends hh u k k' hold
    · obtain ⟨before, after, w, hbefore, hmove, rfl⟩ := Machine.move_of_step hstep
      rw [hevent] at hmove
      exact (h.keeps t before hbefore).fair_of_ends hmove hh k' rfl

theorem start (honest : Prop) (shared : σ) (htasks : honest → ∀ task ∈ tasks, task.Faithful) :
    Unrefused recipes tasks honest [] (Machine.start tasks shared) := by
  refine ⟨.start tasks shared, Machine.chased_start tasks shared, ?_, nofun, nofun⟩
  intro t thread hthread
  rw [Machine.start, List.getElem?_map] at hthread
  obtain ⟨task, htask, rfl⟩ := Option.map_eq_some_iff.mp hthread
  have hmem := List.mem_of_getElem? htask
  exact ⟨⟨fun r hr => .task hmem hr, fun _ _ => trivial, fun h => htasks h task hmem⟩, trivial⟩

theorem follow (hhonest : honest → ∀ r, Offered recipes tasks r → (recipes.factory r).Faithful)
    (hacyclic : ∀ k, ¬TransGen (FactoryRequests recipes tasks) k k)
    (h : Unrefused recipes tasks honest log m) (schedule : List ThreadId) :
    Unrefused recipes tasks honest (log ++ m.log recipes schedule) (m.follow recipes schedule) :=
  Machine.log_preserves (fun _ _ _ _ hbefore hstep => step hhonest hacyclic hbefore hstep) h schedule

end Unrefused

/-- No request is refused without a cycle, whatever threads run and in whatever order they take their
steps. -/
theorem refusalsFounded_follow (recipes : Recipes I σ) (tasks : List (Task I α)) (shared : σ)
    (schedule : List ThreadId) :
    RefusalsFounded recipes tasks ((Machine.start tasks shared).log recipes schedule)
      ((Machine.start tasks shared).follow recipes schedule) := by
  have hrecorded := (Recorded.start tasks shared).follow recipes schedule
  have hchased := Machine.chased_follow recipes tasks shared schedule
  refine ⟨fun t k k' => hrecorded.required hchased, fun hacyclic => ?_,
    fun hacyclic htasks hfactories => ?_⟩
  · exact ((Unrefused.start False shared nofun).follow nofun hacyclic schedule).answers
  · have hrun := (Unrefused.start True shared fun _ => htasks).follow
      (fun _ => hfactories) hacyclic schedule
    exact ⟨hrun.ends trivial, fun t thread k' hthread hending =>
      (hrun.keeps t thread hthread).fair_of_ending hending trivial k' rfl⟩

/-! ## Races that ask upwards -/

namespace Race

/-- The tasks of the threads of a race. -/
abbrev tasksOf (contenders : List Contender) : List (Task race UInt32) :=
  contenders.map fun contender => Task.ask (I := race) contender

theorem factory_give (key : Nat) (result : Except UInt32 UInt32) :
    factory (.give key result) = .act (I := race) () fun _ => .done (result.mapError .fault) := by
  cases result <;> rfl

theorem factory_follow (key target : Nat) :
    factory (.follow key target) =
      .act (I := race) () fun _ => Task.ask (I := race) (.give target (.ok 0)) :=
  rfl

theorem faithful_factory (contender : Contender) :
    Task.Faithful (I := race) (factory contender) := by
  cases contender with
  | give key result =>
    rw [factory_give]
    cases result with
    | ok value => exact fun _ _ => nofun
    | error code => exact fun _ _ => nofun
  | follow key target =>
    rw [factory_follow]
    exact fun _ => Task.faithful_ask (I := race) _

theorem requests_factory {contender r : Contender}
    (h : Task.Requests (I := race) (factory contender) r) :
    ∃ key target, contender = .follow key target ∧ r = .give target (.ok 0) := by
  cases contender with
  | give key result =>
    rw [factory_give] at h
    cases h with
    | act h => cases h
  | follow key target =>
    rw [factory_follow] at h
    cases h with
    | act h => exact ⟨key, target, rfl, Task.eq_of_requests_ask h⟩

/-- Whatever is offered in a race, a contender offers it or it asks for nothing more. -/
theorem offered_cases {contenders : List Contender} {r : race.Request}
    (h : Offered recipes (tasksOf contenders) r) : r ∈ contenders ∨ ∃ key, r = .give key (.ok 0) := by
  cases h with
  | task hmem hrequests =>
    obtain ⟨contender, hcontender, rfl⟩ := List.mem_map.mp hmem
    obtain rfl : r = contender := Task.eq_of_requests_ask hrequests
    exact .inl hcontender
  | factory _ hrequests =>
    obtain ⟨-, target, -, rfl⟩ := requests_factory hrequests
    exact .inr ⟨target, rfl⟩

/-- If all contenders ask for higher keys, so do all factories. -/
theorem lt_of_factoryRequests {contenders : List Contender}
    (hup : ∀ key target, .follow key target ∈ contenders → key < target) {outer inner : Nat}
    (h : FactoryRequests recipes (tasksOf contenders) outer inner) : outer < inner := by
  obtain ⟨r, r', hoffered, rfl, hrequests, rfl⟩ := h
  obtain ⟨key, target, rfl, rfl⟩ := requests_factory hrequests
  rcases offered_cases hoffered with hmem | ⟨key', heq⟩
  · exact hup key target hmem
  · cases heq

/-- So no key is requested by its own factory. -/
theorem not_transGen_factoryRequests {contenders : List Contender}
    (hup : ∀ key target, .follow key target ∈ contenders → key < target) (k : Nat) :
    ¬TransGen (FactoryRequests recipes (tasksOf contenders)) k k := by
  intro hcycle
  have hlt : TransGen (· < ·) k k := TransGen.mono (fun _ _ => lt_of_factoryRequests hup) _ _ hcycle
  rw [Relation.transGen_eq_self] at hlt
  exact Nat.lt_irrefl k hlt

/-- Three threads that ask upwards, in a race in which they take their steps in turn. -/
theorem ascending_acyclic :
    (∀ k, ¬TransGen (FactoryRequests recipes
      (tasksOf [.follow 0 1, .follow 1 2, .give 2 (.ok 7)])) k k) ∧
    (∀ task ∈ tasksOf [.follow 0 1, .follow 1 2, .give 2 (.ok 7)], task.Faithful) ∧
    ∀ t k k', .ends t k (some (.error (.cyclic k'))) ∉
      (start [.follow 0 1, .follow 1 2, .give 2 (.ok 7)]).log recipes
        (List.replicate 20 [0, 1, 2]).flatten := by
  have hacyclic : ∀ k, ¬TransGen (FactoryRequests recipes
      (tasksOf [.follow 0 1, .follow 1 2, .give 2 (.ok 7)])) k k := by
    refine not_transGen_factoryRequests fun key target hmem => ?_
    simp only [List.mem_cons, Contender.follow.injEq, reduceCtorEq, List.not_mem_nil, or_false] at hmem
    omega
  have htasks : ∀ task ∈ tasksOf [.follow 0 1, .follow 1 2, .give 2 (.ok 7)], task.Faithful := by
    intro task htask
    obtain ⟨contender, -, rfl⟩ := List.mem_map.mp htask
    exact Task.faithful_ask (I := race) contender
  exact ⟨hacyclic, htasks, ((refusalsFounded_follow recipes (tasksOf _) 0 _).acyclic hacyclic htasks
    fun r _ => faithful_factory r).1⟩

end Race

end ShaderLowering.Construction
