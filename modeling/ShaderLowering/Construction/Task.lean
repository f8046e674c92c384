import ShaderLowering.Construction.Table

/-!
# Construction tasks

Entities are constructed on demand and at most once each.  What constructing one consists of is a
`Task`: a computation that may act on shared state, look whether some entity is ready, request an
entity and wait for it, fail, or panic.  A task only says *what* it does next; how requests are
answered is up to an interpreter.  There are two: `Construction.Resolve` answers them one after
another, `Construction.Threads` lets any number of threads answer them in any interleaving.  Since
both run the same tasks, a law about tasks is a law about both.

An `Interface` fixes the vocabulary of the tasks: the keys of entities and the type of each
entity, the requests and the key that each asks for, the actions on shared state and their answers,
and the faults by which a construction can fail of its own accord.  Requests are apart from keys
because two requests may ask for the same key and offer different ways to construct it; the way
that is taken is the one of the request that comes first.
-/

namespace ShaderLowering.Construction

/-- The vocabulary of a family of construction tasks. -/
structure Interface where
  Key : Type
  Value : Key → Type
  Request : Type
  key : Request → Key
  Action : Type
  Answer : Action → Type
  Fault : Type
  [decideKey : DecidableEq Key]

attribute [instance] Interface.decideKey

/-- Why an entity could not be had. -/
inductive Failure (κ φ : Type) where
  /-- Its construction is waiting, directly or not, for itself. -/
  | cyclic (key : κ)
  /-- Its construction was attempted before and failed. -/
  | poisoned (key : κ)
  /-- Something is wrong with the entity itself. -/
  | fault (cause : φ)
  deriving DecidableEq, Repr

namespace Failure

/-- A failure in words, given the words for keys and faults. -/
def message {κ φ : Type} (label : κ → String) (words : φ → String) : Failure κ φ → String
  | .cyclic key => "cyclic construction of " ++ label key
  | .poisoned key => "construction of " ++ label key ++ " failed"
  | .fault cause => words cause

end Failure

/-- What a request or a task ends with. -/
abbrev Result (I : Interface) (α : Type) :=
  Except (Failure I.Key I.Fault) α

/-- A computation over an interface that ends with an `α`, a failure, or a panic. -/
inductive Task (I : Interface) (α : Type) where
  | done (result : Result I α)
  | panic
  | act (action : I.Action) (next : I.Answer action → Task I α)
  | peek (key : I.Key) (next : Option (I.Value key) → Task I α)
  | request (r : I.Request) (next : Result I (I.Value (I.key r)) → Task I α)

namespace Task

variable {I : Interface} {α β : Type}

/-- Goes on with the value of a task; a failure or a panic ends the whole. -/
def bind : Task I α → (α → Task I β) → Task I β
  | .done (.ok a), f => f a
  | .done (.error e), _ => .done (.error e)
  | .panic, _ => .panic
  | .act action next, f => .act action fun answer => (next answer).bind f
  | .peek key next, f => .peek key fun value => (next value).bind f
  | .request r next, f => .request r fun result => (next result).bind f

instance : Monad (Task I) where
  pure a := .done (.ok a)
  bind := Task.bind

theorem bind_assoc {γ : Type} (t : Task I α) (f : α → Task I β) (g : β → Task I γ) :
    (t.bind f).bind g = t.bind fun a => (f a).bind g := by
  induction t with
  | done result => cases result <;> rfl
  | panic => rfl
  | act action next ih => exact congrArg (Task.act action) (funext ih)
  | peek key next ih => exact congrArg (Task.peek key) (funext ih)
  | request r next ih => exact congrArg (Task.request r) (funext ih)

theorem bind_pure (t : Task I α) : (t.bind fun a => .done (.ok a)) = t := by
  induction t with
  | done result => cases result <;> rfl
  | panic => rfl
  | act action next ih => exact congrArg (Task.act action) (funext ih)
  | peek key next ih => exact congrArg (Task.peek key) (funext ih)
  | request r next ih => exact congrArg (Task.request r) (funext ih)

instance : LawfulMonad (Task I) :=
  LawfulMonad.mk' (Task I)
    (fun t => bind_pure t)
    (fun _ _ => rfl)
    (fun t f g => bind_assoc t f g)

def fail (cause : I.Fault) : Task I α :=
  .done (.error (.fault cause))

def ofOption (cause : I.Fault) : Option α → Task I α
  | some a => pure a
  | none => fail cause

def perform (action : I.Action) : Task I (I.Answer action) :=
  .act action pure

/-- Requests an entity and fails as its construction does. -/
def ask (r : I.Request) : Task I (I.Value (I.key r)) :=
  .request r .done

end Task

/-- How the entities of an interface are constructed and what its actions do to shared state. -/
structure Recipes (I : Interface) (σ : Type) where
  factory : (request : I.Request) → Task I (I.Value (I.key request))
  act : (action : I.Action) → σ → I.Answer action × σ

end ShaderLowering.Construction
