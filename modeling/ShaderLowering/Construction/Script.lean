import ShaderLowering.Construction.Resolve

/-!
# Scripted constructions

A script is a tree of requests over numbered keys: inserting a key runs a list of further steps and
then ends in a given way.  Scripts exercise everything that can happen to a slot (values, faults of
its own or of a nested request, faults passed over, re-entrance, panics) without anything being
lowered.

The steps of an insertion add up the values that their insertions return, modulo `2 ^ 32`.  An
insertion that is `strict` hands its failure on to the insertion around it; one that is not is
passed over.
-/

namespace ShaderLowering.Construction.Script

/-- How the factory of an insertion ends. -/
inductive Ending where
  | value (n : UInt32)
  /-- The sum of the values that the steps returned, and a number. -/
  | sum (n : UInt32)
  | fault (code : UInt32)
  | panic
  deriving DecidableEq, Repr

mutual

/-- One step of a script. -/
inductive Step where
  | get (key : UInt32)
  | insert (insertion : Insertion)

/-- A request for a key, with the factory that it offers. -/
inductive Insertion where
  | mk (key : UInt32) (steps : List Step) (ending : Ending) (strict : Bool)

end

namespace Insertion

def key : Insertion → UInt32
  | .mk key _ _ _ => key

def steps : Insertion → List Step
  | .mk _ steps _ _ => steps

def ending : Insertion → Ending
  | .mk _ _ ending _ => ending

/-- Whether a failure is handed on. -/
def strict : Insertion → Bool
  | .mk _ _ _ strict => strict

end Insertion

/-! ## Nesting -/

mutual

def Step.depth : Step → Nat
  | .get _ => 0
  | .insert insertion => insertion.depth

/-- How deep insertions nest in an insertion, itself included. -/
def Insertion.depth : Insertion → Nat
  | .mk _ steps _ _ => depthOf steps + 1

def depthOf : List Step → Nat
  | [] => 0
  | step :: steps => max step.depth (depthOf steps)

end

/-! ## Scripts as tasks -/

/-- Why an insertion fails; faults are told apart by a number. -/
abbrev ScriptFailure := Failure UInt32 UInt32

/-- What is noted when a step comes to its end. -/
inductive Event where
  | got (key : UInt32) (value : Option UInt32)
  | inserted (key : UInt32) (result : Except ScriptFailure UInt32)
  | unwound (key : UInt32)

/-- The vocabulary of scripts; the one action notes an event. -/
@[reducible] def script : Interface where
  Key := UInt32
  Value := fun _ => UInt32
  Request := Insertion
  key := Insertion.key
  Action := Event
  Answer := fun _ => Unit
  Fault := UInt32

/-- Runs steps in order and adds up what they return. -/
def runSteps (total : UInt32) : List Step → Task script UInt32
  | [] => .done (.ok total)
  | .get key :: steps =>
    .peek key fun value => .act (.got key value) fun _ => runSteps total steps
  | .insert insertion :: steps =>
    .request insertion fun result => .act (.inserted insertion.key result) fun _ =>
      match result with
      | .ok value => runSteps (total + value) steps
      | .error e => if insertion.strict then .done (.error e) else runSteps total steps

/-- Ends a factory whose steps have returned a total. -/
def Ending.run (total : UInt32) : Ending → Task script UInt32
  | .value n => pure n
  | .sum n => pure (total + n)
  | .fault code => Task.fail (I := script) code
  | .panic => .panic

def factory (insertion : Insertion) : Task script UInt32 := do
  let total ← runSteps 0 insertion.steps
  insertion.ending.run total

/-- Insertions are constructed as they say, and events are noted in the order in which they happen. -/
def recipes : Recipes script (List Event) where
  factory := factory
  act := fun event events => ((), events ++ [event])

/-! ## One after another -/

/-- Runs one step of a script; answers what was noted on the way.  Insertions that a panic unwinds
are noted from the inside out. -/
def runStep (step : Step) (s : State script (List Event)) :
    List Event × State script (List Event) :=
  match (runSteps 0 [step]).execute recipes step.depth { s with shared := [] } with
  | (.panicked unwound, s) => (s.shared ++ unwound.map .unwound, s)
  | (_, s) => (s.shared, s)

/-- Runs a script; answers, for every step, what was noted and how many keys there are after it. -/
def runScript (s : State script (List Event)) : List Step → List (List Event × Nat)
  | [] => []
  | step :: steps =>
    let (events, s) := runStep step s
    (events, s.slots.size) :: runScript s steps

end ShaderLowering.Construction.Script
