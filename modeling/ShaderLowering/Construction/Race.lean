import ShaderLowering.Construction.Threads

/-!
# Races

Threads that make one request each.  In a *common* race all of them ask for the same key, so one
constructs it and the others share its fate.  In a *ring* of `n` threads, thread `i` constructs key
`i` and asks, from within that construction, for key `i + 1`, the last one for key 0; since all
constructions are under way, every thread waits for the next one and some request has to be refused.
Faults are told apart by a number.
-/

namespace ShaderLowering.Construction.Race

/-- A request of a race. -/
inductive Contender where
  /-- Asks for a key; its construction ends with the given result at once. -/
  | give (key : Nat) (result : Except UInt32 UInt32)
  /-- Asks for a key; its construction asks for another key, which would be 0, and passes on what
  that ends with. -/
  | follow (key target : Nat)

def Contender.key : Contender → Nat
  | .give key _ => key
  | .follow key _ => key

/-- The vocabulary of races; the one action notes that a construction has begun. -/
@[reducible] def race : Interface where
  Key := Nat
  Value := fun _ => UInt32
  Request := Contender
  key := Contender.key
  Action := Unit
  Answer := fun _ => Unit
  Fault := UInt32

def factory (contender : Contender) : Task race UInt32 := do
  Task.perform (I := race) ()
  match contender with
  | .give _ (.ok value) => pure value
  | .give _ (.error code) => Task.fail (I := race) code
  | .follow _ target => Task.ask (I := race) (.give target (.ok 0))

/-- Constructions are as their contenders say, and are counted as they begin. -/
def recipes : Recipes race Nat where
  factory := factory
  act := fun _ begun => ((), begun + 1)

def start (contenders : List Contender) : Machine race Nat UInt32 :=
  Machine.start (contenders.map fun contender => Task.ask (I := race) contender) 0

/-- The contenders of a ring. -/
def ring (n : Nat) : List Contender :=
  (List.range n).map fun i => .follow i ((i + 1) % n)

/-- The contenders of a race for one key. -/
def common (n key : Nat) (result : Except UInt32 UInt32) : List Contender :=
  List.replicate n (.give key result)

/-- At least as many rounds as a race of `n` threads takes to come to its end. -/
def enoughRounds (n : Nat) : Nat :=
  16 * (n + 1) * (n + 1)

/-- The end of a race in which all threads take their steps in turn, so that every thread has made
its request before any of them goes on. -/
def finish (contenders : List Contender) : Machine race Nat UInt32 :=
  (start contenders).rounds recipes (enoughRounds contenders.length)

/-- How the threads of a race have ended, in the order of their numbers. -/
def results (m : Machine race Nat UInt32) : List (Result race UInt32) :=
  m.threads.filterMap fun thread => thread.ending?.join

end ShaderLowering.Construction.Race
