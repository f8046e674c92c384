import ShaderLowering.Layout.CallOrder
import ShaderLowering.Layout.IdPositions
import ShaderLowering.Lowering.Emission
import ShaderLowering.Proofs.Semantics.Source

/-!
# What emitted words mean

The straight-line semantics of functions as they stand in a module.  A `Program` is what was decoded
from the words of the declarations and of the functions.  A running function has its values by result
id, its own variables and the variables of the module.  `Target.step` is the effect of one
instruction; `Target.Runs` puts a run together from steps, calls and the instruction that returns.

A run has at most one result (`Target.Runs.unique`).
-/

namespace ShaderLowering.Target

open Spirv

variable {V : Type}

/-- The instructions of a module that a run depends on. -/
structure Program where
  declarations : List Instruction
  functions : List (List Instruction)

namespace Program

/-- The program of a function: the declarations of the run, and the function with all that it calls. -/
def ofFunction (e : Emission) (f : Function) : Program where
  declarations := Instruction.decode e.declarations
  functions := (Layout.callOrder [f]).map fun g => Instruction.decode g.body

/-- The bits of the constant with an id. -/
def constant? (P : Program) (id : Word) : Option Word :=
  P.declarations.findSome? fun i =>
    match i.op?, i.operands with
    | some .constant, [_, id', bits] => if id' = id then some bits else none
    | _, _ => none

/-- There is a variable of the module with an id. -/
def HasVariable (P : Program) (id : Word) : Prop :=
  ∃ i ∈ P.declarations, i.op? = some .variable ∧ i.operands[1]? = some id

instance (P : Program) (id : Word) : Decidable (P.HasVariable id) :=
  inferInstanceAs (Decidable (∃ i ∈ P.declarations, _))

/-- The instructions of the function with an id, after the one that begins it. -/
def function? (P : Program) (id : Word) : Option (List Instruction) :=
  P.functions.findSome? fun block =>
    match block with
    | [] => none
    | i :: rest => if i.op? = some .function ∧ i.operands[1]? = some id then some rest else none

end Program

/-- A running function: the arguments that have not been taken yet, the values that have been
computed, its own variables, and the variables of the module. -/
structure State (V : Type) where
  arguments : List V
  values : Word → Option V
  locals : Word → Option V
  globals : Word → V

namespace State

/-- A function that is about to run. -/
def start (arguments : List V) (globals : Word → V) : State V :=
  ⟨arguments, fun _ => none, fun _ => none, globals⟩

/-- The value of an id: one that has been computed, or a constant. -/
def value? (x : Values V) (P : Program) (s : State V) (id : Word) : Option V :=
  match s.values id with
  | some v => some v
  | none => (P.constant? id).map x.literal

/-- Gives an id a value. -/
def define (s : State V) (id : Word) (v : V) : State V :=
  { s with values := Function.update s.values id (some v) }

/-- Gives a variable of the function a value. -/
def assign (s : State V) (pointer : Word) (v : V) : State V :=
  { s with locals := Function.update s.locals pointer (some v) }

/-- What a variable holds. -/
def load (P : Program) (s : State V) (pointer : Word) : Option V :=
  match s.locals pointer with
  | some v => some v
  | none => if P.HasVariable pointer then some (s.globals pointer) else none

/-- Puts a value into a variable. -/
def store (P : Program) (s : State V) (pointer : Word) (v : V) : Option (State V) :=
  match s.locals pointer with
  | some _ => some (s.assign pointer v)
  | none =>
    if P.HasVariable pointer then
      some { s with globals := Function.update s.globals pointer v }
    else
      none

end State

/-- The effect of an instruction that neither returns nor calls. -/
def step (x : Values V) (P : Program) (s : State V) (i : Instruction) : Option (State V) :=
  match i.op?, i.operands with
  | some .functionParameter, [_, id] =>
    match s.arguments with
    | [] => none
    | v :: rest => some { s.define id v with arguments := rest }
  | some .label, [_] => some s
  | some .variable, [_, id, _] => some (s.assign id x.undefined)
  | some .load, [_, id, pointer] => (s.load P pointer).map (s.define id)
  | some .store, [pointer, id] => (s.value? x P id).bind (s.store P pointer)
  | _, _ => none

/-- What an instruction that returns hands back. -/
def returns? (x : Values V) (P : Program) (s : State V) (i : Instruction) : Option (Option V) :=
  match i.op?, i.operands with
  | some .ret, [] => some none
  | some .returnValue, [id] => (s.value? x P id).map some
  | _, _ => none

/-- What an instruction calls: the id of the result, the function, and the arguments. -/
def call? (i : Instruction) : Option (Word × Word × List Word) :=
  match i.op?, i.operands with
  | some .functionCall, _ :: id :: callee :: arguments => some (id, callee, arguments)
  | _, _ => none

/-- Instructions of a function run to an end: what they return, and the variables of the module
afterwards. -/
inductive Runs (x : Values V) (P : Program) :
    List Instruction → State V → Option V → (Word → V) → Prop
  | stop {i : Instruction} {rest : List Instruction} {s : State V} {r : Option V}
      (hstop : returns? x P s i = some r) : Runs x P (i :: rest) s r s.globals
  | step {i : Instruction} {rest : List Instruction} {s s' : State V} {r : Option V}
      {globals : Word → V} (hstep : step x P s i = some s') (hrest : Runs x P rest s' r globals) :
      Runs x P (i :: rest) s r globals
  | call {i : Instruction} {rest : List Instruction} {s : State V} {id callee : Word}
      {ids : List Word} {block : List Instruction} {arguments : List V} {r₁ r : Option V}
      {globals₁ globals : Word → V} (hcall : call? i = some (id, callee, ids))
      (hblock : P.function? callee = some block)
      (harguments : ids.mapM (s.value? x P) = some arguments)
      (hcallee : Runs x P block (.start arguments s.globals) r₁ globals₁)
      (hrest : Runs x P rest ({ s with globals := globals₁ }.define id (r₁.getD x.undefined)) r
        globals) : Runs x P (i :: rest) s r globals

/-- The function with an id runs on arguments. -/
def RunsFunction (x : Values V) (P : Program) (id : Word) (arguments : List V) (globals : Word → V)
    (r : Option V) (globals' : Word → V) : Prop :=
  ∃ block, P.function? id = some block ∧ Runs x P block (.start arguments globals) r globals'

section Unique

variable {x : Values V} {P : Program} {s s' : State V} {i : Instruction}

theorem returns?_of_step (hstep : step x P s i = some s') : returns? x P s i = none := by
  unfold step at hstep
  unfold returns?
  split at hstep <;> simp_all

theorem call?_of_step (hstep : step x P s i = some s') : call? i = none := by
  unfold step at hstep
  unfold call?
  split at hstep <;> simp_all

theorem call?_of_returns? {r : Option V} (hreturns : returns? x P s i = some r) :
    call? i = none := by
  unfold returns? at hreturns
  unfold call?
  split at hreturns <;> simp_all

/-- A run has one result only. -/
theorem Runs.unique {code : List Instruction} {r r' : Option V} {globals globals' : Word → V}
    (h : Runs x P code s r globals) (h' : Runs x P code s r' globals') :
    r = r' ∧ globals = globals' := by
  induction h generalizing r' globals' with
  -- An instruction returns, takes a step or calls, and never two of these.
  | stop hstop =>
    cases h' with
    | stop hstop' => exact ⟨Option.some.inj (hstop.symm.trans hstop'), rfl⟩
    | step hstep' =>
      rw [returns?_of_step hstep'] at hstop
      cases hstop
    | call hcall' =>
      rw [call?_of_returns? hstop] at hcall'
      cases hcall'
  | step hstep _ ih =>
    cases h' with
    | stop hstop' =>
      rw [returns?_of_step hstep] at hstop'
      cases hstop'
    | step hstep' hrest' =>
      obtain rfl := Option.some.inj (hstep.symm.trans hstep')
      exact ih hrest'
    | call hcall' =>
      rw [call?_of_step hstep] at hcall'
      cases hcall'
  | call hcall hblock harguments _ _ ihcallee ihrest =>
    cases h' with
    | stop hstop' =>
      rw [call?_of_returns? hstop'] at hcall
      cases hcall
    | step hstep' =>
      rw [call?_of_step hstep'] at hcall
      cases hcall
    | call hcall' hblock' harguments' hcallee' hrest' =>
      obtain ⟨rfl, hrest⟩ := Prod.mk.inj (Option.some.inj (hcall.symm.trans hcall'))
      obtain ⟨rfl, rfl⟩ := Prod.mk.inj hrest
      obtain rfl := Option.some.inj (hblock.symm.trans hblock')
      obtain rfl := Option.some.inj (harguments.symm.trans harguments')
      obtain ⟨rfl, rfl⟩ := ihcallee hcallee'
      exact ihrest hrest'

end Unique

end ShaderLowering.Target
