import ShaderLowering.Construction.Resolve

/-!
# Threads

Any number of threads run construction tasks against one table of slots.  The thread that finds a
key free takes its slot and runs the factory; a thread that finds the slot taken waits until it is
settled.  Before it waits it makes sure that its wait closes no chain of waits back to itself, since
every wait on such a chain would last for ever; a request that would is answered with a cycle.

The machine takes the smallest steps that another thread can tell apart.

* Taking a free slot is one step, and so is every action on shared state.
* Settling a slot takes two: its `finished` flag is raised first, and its state is set and the
  threads asleep on it are woken second.
* Waiting takes many: a look at the slot; taking the tracker's lock; a look at the flag of the slot;
  one step per link of the chain of waits, each with a look at the flag of that link; recording the
  wait and giving the lock back; testing the state of the slot, and going to sleep in the same step
  if it is not settled; and, once the thread has been woken and has seen the slot settled, removing
  the record under the lock.

A thread is a stack of constructions that it has begun, each with what is to be done with its
result.  The stack is typed: a frame waits for a value of exactly the type that the construction
above it yields.
-/

namespace ShaderLowering.Construction

abbrev ThreadId := Nat

/-! ## What threads share -/

/-- A slot: who constructs it, whether that is over, its state, and the threads asleep on it. -/
structure Cell (β : Type) where
  owner : ThreadId
  finished : Bool
  state : SlotState β
  sleepers : List ThreadId

/-- Everything that threads share: the slots, the tracker's records of waiting threads and its
lock, and the state that tasks act on. -/
structure World (I : Interface) (σ : Type) where
  cells : Table I.Key fun k => Cell (I.Value k)
  waiting : List (ThreadId × I.Key)
  lock : Option ThreadId
  shared : σ

namespace World

variable {I : Interface} {σ : Type}

def start (shared : σ) : World I σ :=
  ⟨.empty, [], none, shared⟩

def install (w : World I σ) (t : ThreadId) (k : I.Key) : World I σ :=
  { w with cells := w.cells.set k ⟨t, false, .building, []⟩ }

def modifyCell (w : World I σ) (k : I.Key) (f : Cell (I.Value k) → Cell (I.Value k)) :
    World I σ :=
  match w.cells.get? k with
  | some cell => { w with cells := w.cells.set k (f cell) }
  | none => w

/-- Raises the flag of a slot whose factory has come to its end. -/
def finish (w : World I σ) (k : I.Key) : World I σ :=
  w.modifyCell k fun cell => { cell with finished := true }

/-- Sets the state of a slot and wakes the threads asleep on it. -/
def settle (w : World I σ) (k : I.Key) (state : SlotState (I.Value k)) : World I σ :=
  w.modifyCell k fun cell => { cell with state, sleepers := [] }

/-- Puts a thread to sleep on a slot. -/
def sleep (w : World I σ) (t : ThreadId) (k : I.Key) : World I σ :=
  w.modifyCell k fun cell => { cell with sleepers := t :: cell.sleepers }

/-- Whether the flag of a slot is raised. -/
def isFinished (w : World I σ) (k : I.Key) : Bool :=
  match w.cells.get? k with
  | some cell => cell.finished
  | none => true

def owner? (w : World I σ) (k : I.Key) : Option ThreadId :=
  (w.cells.get? k).map Cell.owner

def ready? (w : World I σ) (k : I.Key) : Option (I.Value k) :=
  (w.cells.get? k).bind fun cell => cell.state.value?

def record (w : World I σ) (t : ThreadId) (k : I.Key) : World I σ :=
  { w with waiting := (t, k) :: w.waiting.filter fun r => r.1 != t }

def forget (w : World I σ) (t : ThreadId) : World I σ :=
  { w with waiting := w.waiting.filter fun r => r.1 != t }

def setLock (w : World I σ) (holder : Option ThreadId) : World I σ :=
  { w with lock := holder }

end World

/-! ## Threads -/

/-- What a task is run for: the thread itself, or the construction of a key. -/
inductive Goal (κ : Type) where
  | top
  | construct (key : κ)
  deriving DecidableEq, Repr

@[reducible] def Goal.Value (I : Interface) (α : Type) : Goal I.Key → Type
  | .top => α
  | .construct key => I.Value key

/-- The constructions that enclose the running task, innermost first, each with what is to be done
with its result. -/
inductive Frames (I : Interface) (α : Type) : Goal I.Key → Type where
  | base : Frames I α .top
  | enclosed {goal : Goal I.Key} (key : I.Key)
      (next : Result I (I.Value key) → Task I (goal.Value I α)) (rest : Frames I α goal) :
      Frames I α (.construct key)

/-- The keys under construction on a stack, innermost first. -/
def Frames.keys {I : Interface} {α : Type} : {goal : Goal I.Key} → Frames I α goal → List I.Key
  | _, .base => []
  | _, .enclosed key _ rest => key :: rest.keys

/-- How far a thread has come in waiting for a slot. -/
inductive Phase where
  /-- About to look at the slot. -/
  | inspect
  /-- About to take the tracker's lock. -/
  | enlist
  /-- Holding the lock, about to look at the flag of the slot. -/
  | check
  /-- Holding the lock, at a link of the chain of waits that begins at the slot. -/
  | chase (owner : ThreadId)
  /-- About to test the state of the slot. -/
  | await
  /-- Asleep until woken. -/
  | asleep
  deriving DecidableEq, Repr

/-- What a thread does next. -/
inductive Control (I : Interface) (α : Type) (goal : Goal I.Key) where
  | run (task : Task I (goal.Value I α))
  | wait (key : I.Key) (phase : Phase)
      (next : Result I (I.Value key) → Task I (goal.Value I α))
  /-- The slot is settled; the record of the wait is to be removed. -/
  | leave (key : I.Key) (result : Result I (I.Value key))
      (next : Result I (I.Value key) → Task I (goal.Value I α))
  /-- The factory is over, with a result or (`none`) by a panic, and its flag is raised. -/
  | publish (ending : Option (Result I (goal.Value I α)))

/-- A thread: the running task and the constructions around it. -/
structure Thread (I : Interface) (α : Type) where
  goal : Goal I.Key
  control : Control I α goal
  frames : Frames I α goal

namespace Thread

variable {I : Interface} {σ α : Type}

/-- A thread that is about to run a task. -/
def start (task : Task I α) : Thread I α :=
  ⟨.top, .run task, .base⟩

/-- What a thread has ended with: a result, or (`some none`) a panic. -/
def ending? : Thread I α → Option (Option (Result I α))
  | ⟨.top, .run (.done result), _⟩ => some (some result)
  | ⟨.top, .run .panic, _⟩ => some none
  | _ => none

def waitsFor? (thread : Thread I α) : Option I.Key :=
  match thread.control with
  | .wait key _ _ => some key
  | .leave key _ _ => some key
  | .run _ | .publish _ => none

/-- A factory has come to its end: the flag of its slot is raised.  The task of the thread itself
has no slot; there the thread stops. -/
def finish (w : World I σ) :
    (goal : Goal I.Key) → Option (Result I (goal.Value I α)) → Frames I α goal →
      Option (Thread I α × World I σ)
  | .top, _, _ => none
  | .construct key, ending, frames => some (⟨.construct key, .publish ending, frames⟩, w.finish key)

/-- The state in which a factory leaves its slot. -/
def endingState {β : Type} : Option (Result I β) → SlotState β
  | some result => .ofResult result
  | none => .failed

/-- The slot of the innermost construction is settled, and the enclosing task goes on with the
result, or panics in turn. -/
def publish (w : World I σ) :
    (goal : Goal I.Key) → Option (Result I (goal.Value I α)) → Frames I α goal →
      Option (Thread I α × World I σ)
  | .top, _, _ => none
  | .construct key, ending, frames =>
    match frames with
    | .enclosed _ next rest =>
      let task := match ending with
        | some result => next result
        | none => .panic
      some (⟨_, .run task, rest⟩, w.settle key (endingState ending))

/-- One step of a running task. -/
def stepTask (recipes : Recipes I σ) (t : ThreadId) (w : World I σ) (goal : Goal I.Key)
    (frames : Frames I α goal) : Task I (goal.Value I α) → Option (Thread I α × World I σ)
  | .done result => finish w goal (some result) frames
  | .panic => finish w goal none frames
  | .act action next =>
    let (answer, shared) := recipes.act action w.shared
    some (⟨goal, .run (next answer), frames⟩, { w with shared })
  | .peek key next => some (⟨goal, .run (next (w.ready? key)), frames⟩, w)
  | .request r next =>
    match w.cells.get? (I.key r) with
    | some _ => some (⟨goal, .wait (I.key r) .inspect next, frames⟩, w)
    | none =>
      -- To find the slot free and to take it is one step, so a key has one owner.
      some (⟨.construct (I.key r), .run (recipes.factory r), .enclosed (I.key r) next frames⟩,
        w.install t (I.key r))

/-- What a settled slot answers to a request. -/
def answer? (w : World I σ) (k : I.Key) : Option (Result I (I.Value k)) :=
  match w.cells.get? k with
  | some ⟨_, _, .ready value, _⟩ => some (.ok value)
  | some ⟨_, _, .failed, _⟩ => some (.error (.poisoned k))
  | _ => none

/-- One step of waiting for a slot. -/
def stepWait (t : ThreadId) (w : World I σ) {goal : Goal I.Key} (k : I.Key)
    (next : Result I (I.Value k) → Task I (goal.Value I α)) :
    Phase → Option (Control I α goal × World I σ)
  | .inspect =>
    match answer? w k with
    | some result => some (.run (next result), w)
    | none => some (.wait k .enlist next, w)
  | .enlist =>
    match w.lock with
    | none => some (.wait k .check next, w.setLock (some t))
    | some _ => none
  | .check =>
    if w.isFinished k then
      some (.wait k .await next, w.setLock none)
    else
      -- The lock stays taken for the whole chase.
      (w.owner? k).map fun owner => (.wait k (.chase owner) next, w)
  | .chase owner =>
    if owner = t then
      -- The chain of waits leads back to this thread.
      some (.run (next (.error (.cyclic k))), w.setLock none)
    else
      -- The wait is recorded before others can look for cycles again.
      let wait := some (.wait k .await next, (w.record t k).setLock none)
      match w.waiting.lookup owner with
      | none => wait
      | some link =>
        if w.isFinished link then
          wait
        else
          (w.owner? link).map fun owner => (.wait k (.chase owner) next, w)
  | .await =>
    match answer? w k with
    | some result => some (.leave k result next, w)
    -- The slot cannot be settled between the test and the sleep, so no wake-up is lost.
    | none => some (.wait k .asleep next, w.sleep t k)
  | .asleep =>
    match w.cells.get? k with
    | some cell => if t ∈ cell.sleepers then none else some (.wait k .await next, w)
    | none => none

/-- One step of a thread, if it can take one. -/
def step (recipes : Recipes I σ) (t : ThreadId) (w : World I σ) :
    Thread I α → Option (Thread I α × World I σ)
  | ⟨goal, .run task, frames⟩ => stepTask recipes t w goal frames task
  | ⟨goal, .wait k phase next, frames⟩ =>
    (stepWait t w k next phase).map fun (control, w) => (⟨goal, control, frames⟩, w)
  | ⟨goal, .leave _ result next, frames⟩ =>
    match w.lock with
    | none => some (⟨goal, .run (next result), frames⟩, w.forget t)
    | some _ => none
  | ⟨goal, .publish ending, frames⟩ => publish w goal ending frames

end Thread

/-! ## The machine -/

/-- Threads, numbered from 0, and what they share. -/
structure Machine (I : Interface) (σ α : Type) where
  threads : List (Thread I α)
  world : World I σ

namespace Machine

variable {I : Interface} {σ α : Type}

/-- Every thread is about to run its task. -/
def start (tasks : List (Task I α)) (shared : σ) : Machine I σ α :=
  ⟨tasks.map Thread.start, .start shared⟩

/-- One step of a thread, if it can take one. -/
def step (recipes : Recipes I σ) (m : Machine I σ α) (t : ThreadId) : Option (Machine I σ α) :=
  match m.threads[t]? with
  | none => none
  | some thread =>
    (thread.step recipes t m.world).map fun (thread, world) => ⟨m.threads.set t thread, world⟩

/-- Lets threads take steps in a given order; a thread that cannot is passed over. -/
def follow (recipes : Recipes I σ) (m : Machine I σ α) : List ThreadId → Machine I σ α
  | [] => m
  | t :: schedule => ((m.step recipes t).getD m).follow recipes schedule

def isOver (m : Machine I σ α) : Bool :=
  m.threads.all fun thread => thread.ending?.isSome

/-- Lets every thread in turn take one step, until all have come to their end or the given number
of rounds is over. -/
def rounds (recipes : Recipes I σ) (m : Machine I σ α) : Nat → Machine I σ α
  | 0 => m
  | n + 1 =>
    if m.isOver then m else (m.follow recipes (List.range m.threads.length)).rounds recipes n

end Machine

end ShaderLowering.Construction
