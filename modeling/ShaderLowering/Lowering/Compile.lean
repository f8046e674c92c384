import ShaderLowering.Config
import ShaderLowering.Layout.Canonical
import ShaderLowering.Lowering.Session
import ShaderLowering.Spirv.Literal
import ShaderLowering.Spirv.Module

/-!
# Compiling entry points to a module

A run takes the distinct entry points in the order of their first occurrence.  All execution models
are checked before anything is constructed; then the functions of the entry points are constructed,
which constructs everything that they reach; then the entry points are declared and the module is
laid out canonically.

The last part, `assemble`, needs only what was written and which functions are ready, so it serves
a run on one thread (`compile`) and a run on several (`Lowering.Workers`) alike.  Since the layout
forgets in which order ids were issued and declarations were made, `compile` constructs the entry
points in list order on one thread, whatever number of workers is configured.
-/

namespace ShaderLowering

open Construction (Task Outcome)
open Spirv

/-! ## Entry points -/

/-- The execution mode that goes with an execution model; only fragment shaders have one. -/
def ExecutionModel.mode : ExecutionModel → Except Fault Word
  | .fragment => .ok originUpperLeft
  | model => .error (.unsupportedExecutionModel model)

/-- The first unsupported execution model among entry points, as a fault. -/
def checkModels : List EntryPoint → Except Fault Unit
  | [] => .ok ()
  | entry :: rest =>
    match entry.model.mode with
    | .ok _ => checkModels rest
    | .error fault => .error fault

namespace Construct

/-- Constructs the function of an entry point and all that it reaches. -/
def entryPoint (a : Assembly) (entry : EntryPoint) : Construct Unit := do
  let m ← BodyWriter.methodDef a entry.method
  let _ ← function (FunctionKey.ofMethod m)

def entryPoints (a : Assembly) (entries : List EntryPoint) : Construct Unit :=
  entries.forM (entryPoint a)

end Construct

/-- An entry point whose function is constructed. -/
structure ReadyEntry where
  model : ExecutionModel
  mode : Word
  name : String
  function : Function
  deriving DecidableEq

namespace ReadyEntry

/-- An entry point with its function, if that is ready. -/
def ofEntry (a : Assembly) (ready? : FunctionKey → Option Function) (entry : EntryPoint) :
    Except Error ReadyEntry :=
  match a.method? entry.method with
  | none => .error (.fault (.unresolvedMethod entry.method.toWire))
  | some m =>
    match ready? (FunctionKey.ofMethod m) with
    | none => .error (.fault (.unreachableEntryPoint m.fullName))
    | some function =>
      match entry.model.mode with
      | .error fault => .error (.fault fault)
      | .ok mode => .ok ⟨entry.model, mode, m.fullName, function⟩

def declaration (entry : ReadyEntry) (interface : List GlobalVariable) : List Word :=
  emit .entryPoint
    (entry.model.code :: entry.function.id.raw :: literalString entry.name
      ++ interface.map fun v => v.id.raw)

def modeDeclaration (entry : ReadyEntry) : List Word :=
  emit .executionMode [entry.function.id.raw, entry.mode]

end ReadyEntry

/-! ## Assembling the module -/

/-- Order of global variables in an interface: by storage class, then by field. -/
def GlobalVariable.le (v w : GlobalVariable) : Bool :=
  v.storage.code < w.storage.code
    || (v.storage.code == w.storage.code && v.field.raw ≤ w.field.raw)

namespace Emission

/-- The interface that every entry point lists: all global variables, in order. -/
def interface (e : Emission) : List GlobalVariable :=
  e.globals.mergeSort GlobalVariable.le

/-- The header section of a module: capability, memory model, all entry points, and only then their
execution modes. -/
def headerSection (e : Emission) (entries : List ReadyEntry) : List Word :=
  emit .capability [shaderCapability]
    ++ emit .memoryModel [logicalAddressing, glsl450]
    ++ entries.flatMap (fun entry => entry.declaration e.interface)
    ++ entries.flatMap ReadyEntry.modeDeclaration

def sections (e : Emission) (entries : List ReadyEntry) : Layout.Sections :=
  ⟨e.headerSection entries, e.annotations, e.declarations⟩

/-- The module with the given entry points.  Every declaration that is written has an opcode with a name,
so it makes no difference which others are known (`Compiled.module_eq`). -/
def module (e : Emission) (config : Config) (entries : List ReadyEntry) : Module :=
  let functions := Layout.callOrder (entries.map ReadyEntry.function)
  let (words, bound) := Layout.canonicalize .named (e.sections entries)
    (functions.map Function.body)
  Module.ofWords (magic :: config.version :: config.generator :: bound :: 0 :: words)

/-- Declares entry points and lays the module out, if their functions are ready. -/
def assemble (e : Emission) (a : Assembly) (config : Config)
    (ready? : FunctionKey → Option Function) (entries : List EntryPoint) : Except Error Module :=
  (entries.mapM (ReadyEntry.ofEntry a ready?)).map (e.module config)

end Emission

/-! ## The run -/

def Session.function? (s : Session) (key : FunctionKey) : Option Function :=
  s.ready? (.function key)

/-- Compiles entry points of an assembly, from a state in which ids may already be taken. -/
def compileFrom (start : Session) (a : Assembly) (requested : List EntryPoint) (config : Config) :
    Outcome Key (Except Error Module) :=
  let entries := firstAppearances requested
  match checkModels entries with
  | .error fault => .returned (.error (.fault fault))
  | .ok () =>
    match start.run a (Construct.entryPoints a entries) with
    | (.returned (.error e), _) => .returned (.error e)
    | (.returned (.ok ()), s) => .returned (s.shared.assemble a config s.function? entries)
    | (.panicked unwound, _) => .panicked unwound
    | (.exhausted, _) => .exhausted

/-- Compiles entry points of an assembly to a module. -/
def compile (a : Assembly) (requested : List EntryPoint) (config : Config) :
    Outcome Key (Except Error Module) :=
  compileFrom Session.start a requested config

end ShaderLowering
