import ShaderLowering.Construction.Threads
import ShaderLowering.Lowering.Request

/-!
# Clients

A run may be shared by any number of threads that each ask for one thing after another.  A request that
fails is no reason to stop: the slots that it has filled, and what it has written, are there for the
requests that follow.
-/

namespace ShaderLowering

open Construction (Machine Result Task ThreadId)

namespace Construction.Task

variable {I : Interface} {α : Type}

/-- Carries out a task, and goes on with how it has ended. -/
def attempt : Task I α → Task I (Result I α)
  | .done result => .done (.ok result)
  | .panic => .panic
  | .act action next => .act action fun answer => (next answer).attempt
  | .peek key next => .peek key fun value => (next value).attempt
  | .request r next => .request r fun result => (next result).attempt

end Construction.Task

/-- Asks for one thing after another, whether it is had or not. -/
def Request.inTurn (a : Assembly) (requests : List Request) : Construct Unit :=
  requests.forM fun request => do
    let _ ← (request.task a).attempt

/-- Threads that share a run, each with what it asks for. -/
abbrev Clients := Machine lowering Emission Unit

namespace Clients

def start (a : Assembly) (requests : List (List Request)) : Clients :=
  Machine.start (requests.map (Request.inTurn a)) Emission.empty

def follow (a : Assembly) (clients : Clients) (schedule : List ThreadId) : Clients :=
  Machine.follow (recipes a) clients schedule

end Clients

end ShaderLowering
