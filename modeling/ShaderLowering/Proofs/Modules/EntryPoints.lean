import ShaderLowering.Proofs.Lowering.Keys
import ShaderLowering.Proofs.Modules.Schedules

/-!
# The entry points of a module

The layout numbers the ids of a declared entry point anew, and has to find its name again in order to
leave it alone.  It does if the name is without the zero character: the entry points of a module are
declared in their order, each with its model, the id of its function, the literal string of its name
and the ids of all global variables, and no number below the bound is there for the sake of a name
(`compiled_declaresEntries`).

A name that holds the zero character ends there for the layout, and the words that follow are taken for
ids (`nulNamed_renumbered`): they are numbered with the rest, and the bound rises above ids that
nothing defines.
-/

namespace ShaderLowering

open Construction
open Spirv

/-- The entry points of a module are declared with their names, and its ids are those that it defines.
-/
structure DeclaresEntries (a : Assembly) (requested : List EntryPoint) (m : Module)
    (number : FunctionKey → Word) (interface : List Word) : Prop where
  entries : List.Forall₂ (fun entry i => ∃ method, a.method? entry.method = some method ∧
      i.operands = entry.model.code :: number (FunctionKey.ofMethod method) ::
        (literalString method.fullName ++ interface))
    (firstAppearances requested) (withOp .entryPoint m.preamble)
  interface : interface.Perm ((withOp .variable m.declarations).filterMap Instruction.defines?)
  ids : ∀ w, w ∈ m.results ↔ 1 ≤ w ∧ w < m.bound

variable {a : Assembly} {requested : List EntryPoint} {e : Emission} {ready : List ReadyEntry}
  {h : History} {m : Module}

/-- Only variables are declared as such. -/
theorem eq_global_of_form? {n : Name} {line : Line} (hform : n.form? a = some line)
    (hop : line.op = .variable) : ∃ field, n = .global field := by
  cases n with
  | global field => exact ⟨field, rfl⟩
  | value type => cases type <;> obtain rfl := Option.some.inj hform <;> cases hop
  | own => cases hform
  | _ =>
    obtain rfl := Option.some.inj hform
    cases hop

theorem operands_entryLine {model : ExecutionModel} {key : FunctionKey} {name : String}
    {fields : List FieldId} (number : Name → Word) :
    ((entryLine model key name fields).instruction number).operands = model.code ::
      number (.own key 0) :: (literalString name ++ fields.map fun f => number (.global f)) := by
  simp [entryLine, Line.instruction, Function.comp_def]

namespace Materialized

variable (hm : Materialized a (firstAppearances requested) e ready h)
  (hprinted : Printed a (firstAppearances requested) h (ReadyEntry.order ready) m)

include hm hprinted

/-- The variables of a module are those of its run. -/
theorem mem_variables_iff {w : Word} :
    w ∈ (withOp .variable m.declarations).filterMap Instruction.defines? ↔
      ∃ field ∈ exposed h,
        numberOf a (firstAppearances requested) h (ReadyEntry.order ready) (.global field) = w := by
  set number := numberOf a (firstAppearances requested) h (ReadyEntry.order ready)
  have hdefines : ∀ {n : Name} {line : Line}, n.form? a = some line →
      (line.instruction number).defines? = some (number n) := fun hform => by
    obtain ⟨hdefines, hresultful, -⟩ := Name.defines?_of_form? hform
    rw [hresultful.defines?, hdefines]
    rfl
  constructor
  · intro hw
    obtain ⟨d, hd, hw⟩ := List.mem_filterMap.mp hw
    obtain ⟨hd, hop⟩ := List.mem_filter.mp hd
    rw [hm.declarations_eq hprinted] at hd
    obtain ⟨i, hi, rfl⟩ := List.mem_map.mp hd
    obtain ⟨n, hn, line, hform, -, heq⟩ := exists_of_mem_placed hi
    rw [heq] at hw hop
    rw [Line.op?_instruction] at hop
    -- Only global variables are declared as variables at this level.
    obtain ⟨field, rfl⟩ := eq_global_of_form? hform (Option.some.inj (of_decide_eq_true hop))
    exact ⟨field, hm.mem_exposed_iff.mpr hn, Option.some.inj ((hdefines hform).symm.trans hw)⟩
  · rintro ⟨field, hfield, rfl⟩
    have hmem := hm.mem_declarations_of_form? hprinted (hm.mem_exposed_iff.mp hfield) rfl
    exact List.mem_filterMap.mpr
      ⟨_, List.mem_filter.mpr ⟨hmem, decide_eq_true (Line.op?_instruction _ _)⟩, hdefines rfl⟩

/-- The interface lists the variables of a module, each once. -/
theorem interface_perm (hlegible : e.Legible ready) :
    ((a.interface (exposed h)).map fun f =>
        numberOf a (firstAppearances requested) h (ReadyEntry.order ready) (.global f)).Perm
      ((withOp .variable m.declarations).filterMap Instruction.defines?) := by
  have hdefined : ∀ field ∈ exposed h,
      Name.global field ∈ definedNames a h (ReadyEntry.order ready) := fun field hfield =>
    List.mem_append_left _ (List.mem_filter.mpr ⟨hm.mem_exposed_iff.mp hfield, rfl⟩)
  have hinterface : (a.interface (exposed h)).Nodup :=
    (List.mergeSort_perm _ _).nodup_iff.mpr hm.nodup_exposed
  have hleft : ((a.interface (exposed h)).map fun f =>
      numberOf a (firstAppearances requested) h (ReadyEntry.order ready) (.global f)).Nodup := by
    -- Numbers tell names apart.
    refine hinterface.map_on fun f hf g hg heq => ?_
    exact Name.global.inj (hm.numberOf_injOn hlegible (hdefined f (Assembly.mem_interface.mp hf))
      (hdefined g (Assembly.mem_interface.mp hg)) heq)
  -- Nothing in a module has two results, and these are some of them.
  have hright : ((withOp .variable m.declarations).filterMap Instruction.defines?).Nodup := by
    have hsub : (withOp .variable m.declarations).Sublist m.instructions :=
      List.filter_sublist.trans (List.filter_sublist.trans (List.takeWhile_sublist _))
    exact (hm.nodup_results hlegible hprinted).sublist (hsub.filterMap _)
  refine (List.perm_ext_iff_of_nodup hleft hright).mpr fun w => ?_
  rw [hm.mem_variables_iff hprinted, List.mem_map]
  exact exists_congr fun f => and_congr_left fun _ => Assembly.mem_interface

end Materialized

/-- Where the names of entry points are without the zero character, the layout leaves them as they are:
the entry points of a module are declared in their order, each with its model, the id of its function,
its name and the ids of all global variables; and what is below the bound is the result of an
instruction. -/
theorem compiled_declaresEntries {config : Config} (hcompiled : Compiled a requested config e ready m)
    (hlimits : e.InFormat ready) (hnames : ∀ entry ∈ requested, ∀ method,
      a.method? entry.method = some method → NulFree method.fullName) :
    ∃ keys number interface, FunctionBlocks a requested m keys number ∧
      DeclaresEntries a requested m number interface := by
  obtain ⟨⟨h, hm⟩, rfl⟩ := hcompiled.materialized (Nat.lt_of_succ_lt hlimits.ids)
  have hlegible := hlimits.legible
  have hprinted := hm.printed hlegible.toInstructionsFit config
  refine ⟨_, _, _, hm.functionBlocks hlegible hprinted, ?_, hm.interface_perm hprinted hlegible,
    hm.mem_results_iff hnames hlimits hprinted⟩
  rw [hm.withOp_preamble hprinted, List.forall₂_map_right_iff, List.forall₂_map_right_iff]
  refine ((List.forall₂_and_left (p := fun entry => entry ∈ firstAppearances requested) _ _).mpr
    ⟨fun _ hentry => hentry, hm.forall₂_line⟩).imp ?_
  rintro entry line ⟨hentry, method, hmethod, rfl⟩
  refine ⟨method, hmethod, ?_⟩
  have hname := hnames entry (mem_firstAppearances.mp hentry) method hmethod
  rw [renumbered, (entryLine_regular hname).mapIds_eq, operands_entryLine]
  rfl

/-! ## An entry point that does nothing -/

section Idle

open Il (Code Operation)

/-- Returns at once. -/
def idle (owner name : String) : MethodDef where
  id := ⟨0⟩
  owner := ⟨0⟩
  name := name
  fullName := owner ++ "::" ++ name
  returnType := none
  parameters := []
  locals := []
  attributes := [.static]
  code := Code.empty.push Operation.ret.encode

/-- A type with that method and nothing else. -/
def solitary (owner name : String) : Assembly where
  name := "A"
  types := #[⟨⟨0⟩, owner, .plain, [], []⟩]
  fields := #[]
  methods := #[idle owner name]
  typeNames := [(owner, ⟨0⟩)]

theorem solitary_built (owner name : String) : (solitary owner name).Built := by
  have htype := Assembly.Built.addType (.empty "A") owner .plain []
  have hmethod := htype.defineMethod ⟨0⟩ name none [] [.static] rfl
  exact hmethod.push ⟨0⟩ Operation.ret.encode rfl

/-- What is written for the method, apart from its function. -/
def idleEmission : Emission where
  ids := ⟨4⟩
  declared := [⟨Op.typeVoid.code, [1]⟩, ⟨Op.typeFunction.code, [2, 1]⟩]
  annotated := []
  globals := []

def idleFunction : Function where
  id := ⟨3⟩
  key := ⟨⟨0⟩, []⟩
  returnType := ⟨1⟩
  body := [327734, 1, 3, 0, 2, 131320, 4, 65789, 65592]
  callees := []

/-- The entry point with its function, under the full name of the method. -/
def idleReady (owner name : String) : ReadyEntry :=
  ⟨.fragment, originUpperLeft, (idle owner name).fullName, idleFunction⟩

/-- A session that has made such an entry point. -/
def idleSession : Session :=
  (Session.start.run (solitary "" "") (Construct.entryPoints (solitary "" "") [⟨⟨0⟩, .fragment⟩])).2

/-- Nothing that is constructed depends on the names. -/
theorem run_solitary (owner name : String) : Session.start.run (solitary owner name)
    (Construct.entryPoints (solitary owner name) [⟨⟨0⟩, .fragment⟩]) =
      (.returned (.ok ()), idleSession) :=
  rfl

/-- Only the declaration of the entry point has its name. -/
theorem compile_solitary (owner name : String) :
    compile (solitary owner name) [⟨⟨0⟩, .fragment⟩] .standard =
      .returned (.ok (idleEmission.module .standard [idleReady owner name])) := by
  have hshared : idleSession.shared = idleEmission := rfl
  have hfunction : idleSession.function? (FunctionKey.ofMethod (idle owner name)) =
      some idleFunction := by
    change idleSession.function? ⟨⟨0⟩, []⟩ = some idleFunction
    decide +kernel
  have hready : ReadyEntry.ofEntry (solitary owner name) idleSession.function? ⟨⟨0⟩, .fragment⟩ =
      .ok (idleReady owner name) := by
    have hmethod : (solitary owner name).method? ⟨0⟩ = some (idle owner name) := rfl
    simp only [ReadyEntry.ofEntry, hmethod, hfunction]
    rfl
  have hfirst : firstAppearances [(⟨⟨0⟩, .fragment⟩ : EntryPoint)] = [⟨⟨0⟩, .fragment⟩] := rfl
  simp only [compile, compileFrom, hfirst, run_solitary, hshared, Emission.assemble, List.mapM_cons,
    List.mapM_nil, hready]
  rfl

/-! ## A name that holds the zero character -/

/-- The type of the function is placed right after the one that it refers to. -/
theorem placement_idle {used : List Word}
    (hused : Layout.declarationsOf (Layout.declarationIndex .named idleEmission.declared) used = [0, 1]) :
    Layout.placement .named idleEmission.declared used = [0, 1] := by
  set next := Layout.references (Layout.declarationIndex .named idleEmission.declared)
    idleEmission.declared with hnext
  have hvoid : next 0 = [0] := by decide +kernel
  have hfunction : next 1 = [1, 0] := by decide +kernel
  have hlength : List.range idleEmission.declared.length = [0, 1] := rfl
  simp only [Layout.placement, ← hnext, hused, hlength]
  simp [Layout.postorder, hvoid, hfunction]

/-- The module of a method whose name begins with the zero character. -/
def nulModule : Module :=
  Module.ofWords [119734787, 66304, 516256045, 7, 0, 131089, 1, 196622, 0, 1, 393231, 4, 1,
    3816020, 2, 3, 196624, 1, 7, 131091, 4, 196641, 5, 4, 327734, 4, 1, 0, 5, 131320, 6, 65789,
    65592]

/-- The words of the name after the zero character are numbered as if they were ids, so the name is no
longer what it was, and two of the numbers below the bound are the results of no instruction. -/
theorem nulNamed_renumbered : (solitary "T" "\x00abcd").Built ∧
    compile (solitary "T" "\x00abcd") [⟨⟨0⟩, .fragment⟩] .standard = .returned (.ok nulModule) ∧
    (withOp .entryPoint nulModule.preamble).map Instruction.operands =
      [[4, 1, 0x003a3a54, 2, 3]] ∧
    literalString (idle "T" "\x00abcd").fullName = [0x003a3a54, 0x64636261, 0] ∧
    nulModule.results = [4, 5, 1, 6] ∧ nulModule.bound = 7 := by
  -- The name takes three words, and the scan for its end stops in the first of them.
  have hsections : idleEmission.sections [idleReady "T" "\x00abcd"] =
      ⟨[131089, 1, 196622, 0, 1, 393231, 4, 3, 0x003a3a54, 0x64636261, 0, 196624, 3, 7], [],
        idleEmission.declarations⟩ := by
    decide +kernel
  have horder : Layout.callOrder ([idleReady "T" "\x00abcd"].map ReadyEntry.function) =
      [idleFunction] := by
    simp [Layout.callOrder, Layout.callOrderFrom, idleReady, idleFunction]
  have hdeclared : Instruction.decode idleEmission.declarations = idleEmission.declared := by
    decide +kernel
  have hmodule : idleEmission.module .standard [idleReady "T" "\x00abcd"] = nulModule := by
    simp only [Emission.module, hsections, horder, Layout.canonicalize, Layout.placed, hdeclared]
    rw [placement_idle (by decide +kernel)]
    decide +kernel
  refine ⟨solitary_built _ _, hmodule ▸ compile_solitary _ _, ?_⟩
  decide +kernel

end Idle

end ShaderLowering
