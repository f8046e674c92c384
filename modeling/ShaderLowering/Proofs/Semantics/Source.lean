import ShaderLowering.Proofs.Lowering.Constructible

/-!
# What methods mean

The reference semantics of method bodies.  A method runs on slots that hold values: its parameters
fill the first slots, and the others start undefined.  `Source.step` is the effect of an operation
that neither stops the method nor calls another; `Source.Runs` puts a run together from such steps,
calls and the operation that stops it.  What values are is left open but for the two that a program
can make by itself, the undefined one and literals.

A run has at most one result (`Source.Runs.unique`).
-/

namespace ShaderLowering

open Spirv (Word)

/-- The values that a program can make by itself. -/
structure Values (V : Type) where
  undefined : V
  literal : Word → V

namespace Source

variable {V : Type}

/-- The values of the slots of a running method and of all static fields. -/
structure State (V : Type) where
  slots : List V
  globals : FieldId → V

/-- Puts a value into a slot, if there is one with the number. -/
def State.store (s : State V) (slot : Il.Slot) (v : V) : Option (State V) :=
  if slot.toNat < s.slots.length then
    some { s with slots := s.slots.set slot.toNat v }
  else
    none

/-- Puts what a call returned into a slot, if one is bound to it. -/
def State.bind (x : Values V) (s : State V) (result : Option Il.Slot) (returned : Option V) :
    Option (State V) :=
  match result with
  | none => some s
  | some slot => s.store slot (returned.getD x.undefined)

/-- The slots of a method before its first instruction. -/
def entrySlots (x : Values V) (m : MethodDef) (arguments : List V) : List V :=
  arguments ++ List.replicate (m.slotCount - arguments.length) x.undefined

/-- The effect of an operation that neither stops the method nor calls another. -/
def step (x : Values V) (s : State V) : Il.Operation → Option (State V)
  | .load destination source => do
    let v ← s.slots[source.toNat]?
    s.store destination v
  | .loadField destination wire => do
    let field ← EntityId.ofWire? wire
    s.store destination (s.globals field)
  | .storeField wire source => do
    let field ← EntityId.ofWire? wire
    let v ← s.slots[source.toNat]?
    some { s with globals := Function.update s.globals field v }
  | .loadUInt32 destination bits => s.store destination (x.literal bits)
  | .loadFloat32 destination bits => s.store destination (x.literal bits)
  | .call _ _ _ | .ret | .returnValue _ => none

/-- What an operation that stops the method returns. -/
def returns? (s : State V) : Il.Operation → Option (Option V)
  | .ret => some none
  | .returnValue (some slot) => (s.slots[slot.toNat]?).map some
  | _ => none

/-- Instructions of a method run to an end: what they return, and the static fields afterwards. -/
inductive Runs (a : Assembly) (x : Values V) :
    List Il.Instruction → State V → Option V → (FieldId → V) → Prop
  | stop {i : Il.Instruction} {rest : List Il.Instruction} {s : State V} {op : Il.Operation}
      {r : Option V} (hi : i.decode = .ok op) (hstop : returns? s op = some r) :
      Runs a x (i :: rest) s r s.globals
  | step {i : Il.Instruction} {rest : List Il.Instruction} {s s' : State V} {op : Il.Operation}
      {r : Option V} {globals : FieldId → V} (hi : i.decode = .ok op) (hstep : step x s op = some s')
      (hrest : Runs a x rest s' r globals) : Runs a x (i :: rest) s r globals
  | call {i : Il.Instruction} {rest : List Il.Instruction} {s s' : State V}
      {result : Option Il.Slot} {wire : UInt64} {slots : List Il.Slot} {target : MethodDef}
      {arguments : List V} {r₁ r : Option V} {globals₁ globals : FieldId → V}
      (hi : i.decode = .ok (.call result wire slots))
      (htarget : Specialized.target? a wire = some target)
      (harguments : slots.mapM (fun slot => s.slots[slot.toNat]?) = some arguments)
      (hcallee : Runs a x target.code.instructions ⟨entrySlots x target arguments, s.globals⟩ r₁
        globals₁)
      (hresult : State.bind x { s with globals := globals₁ } result r₁ = some s')
      (hrest : Runs a x rest s' r globals) : Runs a x (i :: rest) s r globals

/-- A method runs on arguments. -/
def RunsMethod (a : Assembly) (x : Values V) (m : MethodDef) (arguments : List V)
    (globals : FieldId → V) : Option V → (FieldId → V) → Prop :=
  Runs a x m.code.instructions ⟨entrySlots x m arguments, globals⟩

theorem returns?_of_step {x : Values V} {s s' : State V} {op : Il.Operation}
    (hstep : step x s op = some s') : returns? s op = none := by
  cases op <;> first | rfl | cases hstep

/-- A run has one result only. -/
theorem Runs.unique {a : Assembly} {x : Values V} {code : List Il.Instruction} {s : State V}
    {r r' : Option V} {globals globals' : FieldId → V} (h : Runs a x code s r globals)
    (h' : Runs a x code s r' globals') : r = r' ∧ globals = globals' := by
  induction h generalizing r' globals' with
  -- An operation returns, takes a step or calls, and never two of these.
  | stop hi hstop =>
    cases h' with
    | stop hi' hstop' =>
      obtain rfl := Except.ok.inj (hi.symm.trans hi')
      exact ⟨Option.some.inj (hstop.symm.trans hstop'), rfl⟩
    | step hi' hstep' =>
      obtain rfl := Except.ok.inj (hi.symm.trans hi')
      rw [returns?_of_step hstep'] at hstop
      cases hstop
    | call hi' =>
      obtain rfl := Except.ok.inj (hi.symm.trans hi')
      cases hstop
  | step hi hstep _ ih =>
    cases h' with
    | stop hi' hstop' =>
      obtain rfl := Except.ok.inj (hi.symm.trans hi')
      rw [returns?_of_step hstep] at hstop'
      cases hstop'
    | step hi' hstep' hrest' =>
      obtain rfl := Except.ok.inj (hi.symm.trans hi')
      obtain rfl := Option.some.inj (hstep.symm.trans hstep')
      exact ih hrest'
    | call hi' =>
      obtain rfl := Except.ok.inj (hi.symm.trans hi')
      cases hstep
  | call hi htarget harguments _ hresult _ ihcallee ihrest =>
    cases h' with
    | stop hi' hstop' =>
      obtain rfl := Except.ok.inj (hi.symm.trans hi')
      cases hstop'
    | step hi' hstep' =>
      obtain rfl := Except.ok.inj (hi.symm.trans hi')
      cases hstep'
    | call hi' htarget' harguments' hcallee' hresult' hrest' =>
      obtain ⟨rfl, rfl, rfl⟩ := Il.Operation.call.inj (Except.ok.inj (hi.symm.trans hi'))
      obtain rfl := Option.some.inj (htarget.symm.trans htarget')
      obtain rfl := Option.some.inj (harguments.symm.trans harguments')
      obtain ⟨rfl, rfl⟩ := ihcallee hcallee'
      obtain rfl := Option.some.inj (hresult.symm.trans hresult')
      exact ihrest hrest'

end Source

/-! ## What methods reach -/

/-- The operation stops the method. -/
def Il.Operation.Stops : Il.Operation → Prop
  | .ret | .returnValue _ => True
  | _ => False

namespace MethodDef

/-- Some instruction of the method stops it. -/
def Returns (m : MethodDef) : Prop :=
  ∃ i ∈ m.code.instructions, ∃ op, i.decode = .ok op ∧ op.Stops

/-- A method holds a call to another. -/
def Calls (a : Assembly) (m target : MethodDef) : Prop :=
  ∃ i ∈ m.code.instructions, ∃ result wire arguments,
    i.decode = .ok (.call result wire arguments) ∧ Specialized.target? a wire = some target

end MethodDef

end ShaderLowering
