import ShaderLowering.Construction.Threads
import ShaderLowering.Lowering.Compile

/-!
# Compiling on several workers

Workers share one table of slots and one emission.  Each constructs the entry points dealt to it,
one after another, and stops at its first failure; which worker gets which entry points and in what
order the workers take their steps is left open.  When all have come to their end, the module is
assembled as after a run on one thread.

A run whose workers all succeed has constructed every entry point dealt to one of them; a run with
a failure has failed, whatever the other workers were still to do.
-/

namespace ShaderLowering

open Construction (Task Machine ThreadId)

/-- Workers and what they share. -/
abbrev WorkerPool := Machine lowering Emission Unit

namespace WorkerPool

def start (a : Assembly) (dealt : List (List EntryPoint)) : WorkerPool :=
  Machine.start (dealt.map (Construct.entryPoints a)) Emission.empty

def follow (a : Assembly) (pool : WorkerPool) (schedule : List ThreadId) : WorkerPool :=
  Machine.follow (recipes a) pool schedule

def function? (pool : WorkerPool) (key : FunctionKey) : Option Function :=
  pool.world.ready? (.function key)

/-- The first failure of a worker, in the order of their numbers. -/
def failure? (pool : WorkerPool) : Option Error :=
  pool.threads.findSome? fun thread =>
    match thread.ending? with
    | some (some (.error e)) => some e
    | _ => none

/-- What a pool whose workers have all come to their end has made of the entry points. -/
def result (pool : WorkerPool) (a : Assembly) (config : Config) (entries : List EntryPoint) :
    Except Error Spirv.Module :=
  match pool.failure? with
  | some e => .error e
  | none => pool.world.shared.assemble a config pool.function? entries

end WorkerPool

/-- Deals entry points to `n` workers in turn. -/
def dealInTurn (n : Nat) (entries : List EntryPoint) : List (List EntryPoint) :=
  (List.range n).map fun worker =>
    (entries.zipIdx.filter fun p => p.2 % n == worker).map Prod.fst

/-- Compiles entry points of an assembly on workers that follow a schedule; `none` if the schedule
ends before all workers have. -/
def compileOn (a : Assembly) (requested : List EntryPoint) (config : Config)
    (deal : List EntryPoint → List (List EntryPoint)) (schedule : List ThreadId) :
    Option (Except Error Spirv.Module) :=
  let entries := firstAppearances requested
  match checkModels entries with
  | .error fault => some (.error (.fault fault))
  | .ok () =>
    let pool := (WorkerPool.start a (deal entries)).follow a schedule
    if pool.isOver then some (pool.result a config entries) else none

end ShaderLowering
