import ShaderLowering.Construction.Task

/-!
# Resolving requests one after another

With a single thread a request is a function call.  A key that nobody has asked for gets a slot and
its factory is run; a key that is still being built when it is asked for again is waiting for
itself; a settled key answers at once.  When a factory ends its slot is settled: ready with the
value, or failed, also when the factory panicked.

The recursion from factories to requests to factories is cut off by a depth.  A run that would go
deeper is `exhausted`, which is neither an answer nor a failure; where the keys that can be asked
for are finitely many, a depth of one more than their number is never exhausted, because every
nested factory has taken a slot that was free before.
-/

namespace ShaderLowering.Construction

/-- The state of an entity that has been asked for. -/
inductive SlotState (β : Type) where
  | building
  | ready (value : β)
  | failed
  deriving DecidableEq, Repr

namespace SlotState

variable {β : Type}

def value? : SlotState β → Option β
  | .ready value => some value
  | .building | .failed => none

/-- The state in which a factory leaves its slot. -/
def ofResult {ε : Type} : Except ε β → SlotState β
  | .ok value => .ready value
  | .error _ => .failed

end SlotState

/-- How a computation comes to its end. -/
inductive Outcome (κ α : Type) where
  | returned (value : α)
  /-- It panicked; the constructions that were given up on the way out, innermost first. -/
  | panicked (unwound : List κ)
  /-- It was not followed to its end. -/
  | exhausted
  deriving DecidableEq, Repr

/-- The entities asked for so far, and the state that tasks share. -/
structure State (I : Interface) (σ : Type) where
  slots : Table I.Key fun k => SlotState (I.Value k)
  shared : σ

namespace State

variable {I : Interface} {σ : Type}

def start (shared : σ) : State I σ :=
  ⟨.empty, shared⟩

def settle (s : State I σ) (k : I.Key) (slot : SlotState (I.Value k)) : State I σ :=
  { s with slots := s.slots.set k slot }

def ready? (s : State I σ) (k : I.Key) : Option (I.Value k) :=
  (s.slots.get? k).bind SlotState.value?

end State

variable {I : Interface} {σ α : Type}

/-- An answer to a request, and the state after it. -/
abbrev Answerer (I : Interface) (σ : Type) :=
  (request : I.Request) → State I σ →
    Outcome I.Key (Result I (I.Value (I.key request))) × State I σ

/-- Runs a task, with requests answered by `answer`. -/
def Task.run (recipes : Recipes I σ) (answer : Answerer I σ) :
    Task I α → State I σ → Outcome I.Key (Result I α) × State I σ
  | .done result, s => (.returned result, s)
  | .panic, s => (.panicked [], s)
  | .act action next, s =>
    let (reply, shared) := recipes.act action s.shared
    (next reply).run recipes answer { s with shared }
  | .peek key next, s => (next (s.ready? key)).run recipes answer s
  | .request r next, s =>
    match answer r s with
    | (.returned result, s) => (next result).run recipes answer s
    | (.panicked unwound, s) => (.panicked unwound, s)
    | (.exhausted, s) => (.exhausted, s)

/-- A run of a task that goes on is a run of its first part and then of the rest. -/
theorem Task.run_bind {β : Type} (recipes : Recipes I σ) (answer : Answerer I σ) (t : Task I α)
    (f : α → Task I β) (s : State I σ) :
    (t.bind f).run recipes answer s = match t.run recipes answer s with
      | (.returned (.ok a), s) => (f a).run recipes answer s
      | (.returned (.error e), s) => (.returned (.error e), s)
      | (.panicked unwound, s) => (.panicked unwound, s)
      | (.exhausted, s) => (.exhausted, s) := by
  induction t generalizing s with
  | done result => cases result <;> rfl
  | panic => rfl
  | act action next ih => exact ih _ _
  | peek key next ih => exact ih _ _
  | request r next ih =>
    simp only [Task.bind, Task.run]
    rcases answer r s with ⟨_ | _ | _, s'⟩
    · exact ih _ _
    · rfl
    · rfl

/-- Settles the slot of a factory that has come to its end. -/
def conclude (k : I.Key) :
    Outcome I.Key (Result I (I.Value k)) × State I σ →
      Outcome I.Key (Result I (I.Value k)) × State I σ
  | (.returned result, s) => (.returned result, s.settle k (.ofResult result))
  | (.panicked unwound, s) => (.panicked (unwound ++ [k]), s.settle k .failed)
  | (.exhausted, s) => (.exhausted, s)

/-- Answers a request; factories nest at most `depth` deep. -/
def resolve (recipes : Recipes I σ) : Nat → Answerer I σ
  | 0, _, s => (.exhausted, s)
  | depth + 1, request, s =>
    let k := I.key request
    match s.slots.get? k with
    | some .building => (.returned (.error (.cyclic k)), s)
    | some (.ready value) => (.returned (.ok value), s)
    | some .failed => (.returned (.error (.poisoned k)), s)
    | none =>
      -- The slot is taken before the factory runs: a request for it from within is a cycle.
      conclude k
        ((recipes.factory request).run recipes (resolve recipes depth) (s.settle k .building))

/-- Runs a task from a state, with factories nested at most `depth` deep. -/
def Task.execute (recipes : Recipes I σ) (depth : Nat) (task : Task I α) (s : State I σ) :
    Outcome I.Key (Result I α) × State I σ :=
  task.run recipes (resolve recipes depth) s

end ShaderLowering.Construction
