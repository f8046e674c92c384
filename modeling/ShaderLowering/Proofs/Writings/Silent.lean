import ShaderLowering.Lowering.Workers
import ShaderLowering.Proofs.Threads.Confined

/-!
# What writes nothing

Only the construction of a shape, a constant, a struct or a variable writes declarations and
annotations, and each writes its own.  Everything else takes ids and asks for other entities: it is
`Silent`, and so are all requests, all entry points and all that writes the body of a function.
Variables are asked for behind static fields only.
-/

namespace ShaderLowering

open Construction (Task)
open Spirv

/-- There is such a field, and it is static. -/
def Assembly.IsStatic (a : Assembly) (field : FieldId) : Prop :=
  ∃ f, a.field? field = some f ∧ f.isStatic = true

/-- Anything may be asked for, apart from a variable behind a field that is not static. -/
def Askable (a : Assembly) : Key → Prop
  | .variable field => a.IsStatic field
  | _ => True

/-- A construction task takes ids and asks for entities, and writes nothing. -/
abbrev Construct.Silent {α : Type} (a : Assembly) (t : Construct α) : Prop :=
  Task.Confined (I := lowering) (· = .freshId) (Askable a) t

/-- Writing a function asks for entities, and writes nothing but the function. -/
def BodyWriter.Silent {α : Type} (a : Assembly) (x : BodyWriter α) : Prop :=
  ∀ draft, Construct.Silent a (x.run draft)

variable {a : Assembly} {α β : Type}

/-! ## Types and variables -/

section Entities

-- To ask for a type, a constant, a variable or a function takes no action at all.
variable {acts : lowering.Action → Prop}

theorem silent_shape (s : Shape) :
    Task.Confined (I := lowering) acts (Askable a) (Construct.shape s) :=
  .ask (I := lowering) (r := .shape s) trivial

theorem silent_constant (type : Id) (bits : Word) :
    Task.Confined (I := lowering) acts (Askable a) (Construct.constant type bits) :=
  .ask (I := lowering) (r := .constant type bits) trivial

theorem silent_function (key : FunctionKey) :
    Task.Confined (I := lowering) acts (Askable a) (Construct.function key) :=
  .ask (I := lowering) (r := .function key) trivial

theorem silent_type (a : Assembly) (id : TypeId) :
    Task.Confined (I := lowering) acts (Askable a) (Construct.type a id) :=
  .bind (.ofOption _ _) fun _ => .ask (I := lowering) (r := .type id) trivial

theorem silent_returnType (a : Assembly) (id : Option TypeId) :
    Task.Confined (I := lowering) acts (Askable a) (Construct.returnType a id) := by
  cases id with
  | none => exact silent_shape _
  | some id => exact silent_type a id

theorem silent_representation? (a : Assembly) (t : TypeDef) (name : String) :
    Task.Confined (I := lowering) acts (Askable a) (Construct.representation? a t name) := by
  unfold Construct.representation?
  dsimp only
  split
  · exact .pure _
  · exact .fail _
  · exact .map (silent_shape _) _
  · exact .map (silent_shape _) _
  · exact .map (silent_shape _) _
  · refine .bind (.ofOption _ _) fun element => .bind (silent_type a _) fun _ => ?_
    exact .bind (.ofOption _ _) fun size => .map (silent_shape _) _

/-- A variable is asked for only if its field is static. -/
theorem silent_global (a : Assembly) (id : FieldId) :
    Task.Confined (I := lowering) acts (Askable a) (Construct.global a id) := by
  unfold Construct.global Construct.fieldDef
  cases hfield : a.field? id with
  | none => exact .fail _
  | some f =>
    change Task.Confined (I := lowering) acts (Askable a)
      (if f.isStatic then Task.ask (I := lowering) (.variable id)
        else Task.fail (I := lowering) (.nonStaticField f.name))
    split
    · next hstatic => exact .ask (I := lowering) (r := .variable id) ⟨f, hfield, hstatic⟩
    · exact .fail (I := lowering) _

end Entities

theorem silent_freshId : Construct.Silent a Construct.freshId :=
  .perform (I := lowering) rfl

/-! ## Functions -/

namespace BodyWriter.Silent

variable {x : BodyWriter α} {f : α → BodyWriter β}

theorem bind (hx : x.Silent a) (hf : ∀ v, (f v).Silent a) : (x >>= f).Silent a := by
  intro draft
  rw [StateT.run_bind]
  exact .bind (hx draft) fun r => hf r.1 r.2

theorem pure (v : α) : (Pure.pure v : BodyWriter α).Silent a :=
  fun _ => .pure _

theorem lift {t : Construct α} (ht : t.Silent a) : (liftM t : BodyWriter α).Silent a :=
  fun _ => .bind ht fun _ => .pure _

theorem fail (fault : Fault) : (BodyWriter.fail fault : BodyWriter α).Silent a :=
  .lift (Task.Confined.fail (I := lowering) fault)

theorem ofOption (fault : Fault) (o : Option α) : (BodyWriter.ofOption fault o).Silent a :=
  .lift (Task.Confined.ofOption (I := lowering) fault o)

theorem get : (get : BodyWriter Draft).Silent a :=
  fun _ => .pure _

theorem modify (f : Draft → Draft) : (modify f : BodyWriter PUnit).Silent a :=
  fun _ => .pure _

theorem write (op : Op) (operands : List Word) : (BodyWriter.write op operands).Silent a :=
  .modify _

theorem freshId : BodyWriter.freshId.Silent a :=
  .lift silent_freshId

theorem mapM {γ : Type} {k : γ → BodyWriter α} (xs : List γ) (hk : ∀ x, (k x).Silent a) :
    (xs.mapM k).Silent a := by
  induction xs with
  | nil => exact .pure []
  | cons x xs ih =>
    rw [List.mapM_cons]
    exact .bind (hk x) fun v => .bind ih fun vs => .pure (v :: vs)

theorem forM {γ : Type} {k : γ → BodyWriter PUnit} (xs : List γ) (hk : ∀ x, (k x).Silent a) :
    (xs.forM k).Silent a := by
  induction xs with
  | nil => exact .pure _
  | cons x xs ih => exact .bind (hk x) fun _ => ih

end BodyWriter.Silent

section Functions

open BodyWriter (Silent)

variable (m : MethodDef)

theorem silent_slot (number : Il.Slot) : Silent a (BodyWriter.slot m number) :=
  .bind .get fun _ => .ofOption _ _

theorem silent_loadSlot (number : Il.Slot) : Silent a (BodyWriter.loadSlot m number) :=
  .bind (silent_slot m number) fun _ => .bind .freshId fun _ => .bind (.write _ _) fun _ => .pure _

theorem silent_storeSlot (number : Il.Slot) (value : Id) :
    Silent a (BodyWriter.storeSlot m number value) :=
  .bind (silent_slot m number) fun _ => .write _ _

theorem silent_callee (wire : UInt64) : Construct.Silent a (BodyWriter.callee a wire) := by
  unfold BodyWriter.callee
  split
  · exact .fail _
  · exact .ofOption _ _

theorem silent_argumentType (declared : TypeId) (argument : Il.Slot) :
    Silent a (BodyWriter.argumentType a m declared argument) := by
  refine .bind (.lift (.ofOption _ _)) fun t => ?_
  split
  · exact .bind (silent_slot m argument) fun _ => .pure _
  · exact .pure _

theorem silent_call (result : Option Il.Slot) (wire : UInt64) (arguments : List Il.Slot) :
    Silent a (BodyWriter.call a m result wire arguments) := by
  refine .bind (.lift (silent_callee wire)) fun target => ?_
  dsimp only
  split
  case' isTrue => refine .bind (.fail _) fun _ => ?_
  all_goals
    refine .bind (.mapM _ fun _ => silent_argumentType m _ _) fun parameters => ?_
    refine .bind (.lift (silent_function _)) fun function => ?_
    refine .bind (.mapM arguments (silent_loadSlot m)) fun values => .bind .freshId fun value => ?_
    refine .bind (.write _ _) fun _ => .bind (.modify _) fun _ => ?_
    cases result with
    | none => exact .pure _
    | some number => exact silent_storeSlot m number value

theorem silent_namedGlobal (wire : UInt64) : Construct.Silent a (BodyWriter.global a wire) := by
  unfold BodyWriter.global
  split
  · exact .fail _
  · exact silent_global a _

theorem silent_loadConstant (destination : Il.Slot) (bits : Word) :
    Silent a (BodyWriter.loadConstant m destination bits) :=
  .bind (silent_slot m destination) fun _ => .bind (.lift (silent_constant _ _)) fun _ =>
    silent_storeSlot m destination _

theorem silent_operation (op : Il.Operation) : Silent a (BodyWriter.operation a m op) := by
  cases op with
  | call result wire arguments => exact silent_call m result wire arguments
  | ret => exact .write _ _
  | returnValue value =>
    cases value with
    | none => exact .fail _
    | some number => exact .bind (silent_loadSlot m number) fun _ => .write _ _
  | load destination source =>
    exact .bind (silent_loadSlot m source) fun _ => silent_storeSlot m destination _
  | loadField destination wire =>
    refine .bind (.lift (silent_namedGlobal wire)) fun _ => .bind .freshId fun _ => ?_
    exact .bind (.write _ _) fun _ => silent_storeSlot m destination _
  | storeField wire source =>
    refine .bind (.lift (silent_namedGlobal wire)) fun _ => ?_
    exact .bind (silent_loadSlot m source) fun _ => .write _ _
  | loadUInt32 destination value => exact silent_loadConstant m destination value
  | loadFloat32 destination bits => exact silent_loadConstant m destination bits

theorem silent_instruction (i : Il.Instruction) : Silent a (BodyWriter.instruction a m i) := by
  unfold BodyWriter.instruction
  split
  · exact .fail _
  · exact silent_operation m _

theorem silent_declareSlot (type : TypeId) : Silent a (BodyWriter.declareSlot a type) :=
  .bind (.lift (silent_type a type)) fun _ => .bind (.lift (silent_shape _)) fun _ =>
    .bind .freshId fun _ => .bind (.write _ _) fun _ => .modify _

theorem silent_declareSlots (m : MethodDef) (s : Specialization) :
    Silent a (BodyWriter.declareSlots a m s) := by
  rw [BodyWriter.declareSlots_eq]
  exact .forM _ fun declared => silent_declareSlot _

theorem silent_signature (id returnType functionType : Id) (parameterTypes : List Id) :
    Silent a (BodyWriter.signature id returnType functionType parameterTypes) :=
  .bind (.write _ _) fun _ => .mapM _ fun _ =>
    .bind .freshId fun _ => .bind (.write _ _) fun _ => .pure _

theorem silent_body (s : Specialization) (id returnType functionType : Id) (parameterTypes : List Id) :
    Silent a (BodyWriter.body a m s id returnType functionType parameterTypes) := by
  refine .bind (silent_signature id returnType functionType parameterTypes) fun parameters => ?_
  refine .bind .freshId fun label => .bind (.write _ _) fun _ => ?_
  refine .bind (silent_declareSlots m s) fun _ => .bind .get fun draft => ?_
  exact .bind (.forM _ fun pair => .write _ _) fun _ =>
    .bind (.forM _ (silent_instruction m)) fun _ => .write _ _

end Functions

theorem silent_methodDef (a : Assembly) (id : MethodId) :
    Construct.Silent a (BodyWriter.methodDef a id) :=
  .ofOption _ _

theorem silent_buildSpecialized (m : MethodDef) (key : FunctionKey) (s : Specialization) :
    Construct.Silent a (Construct.buildSpecialized a m key s) := by
  refine .bind (silent_returnType a _) fun returnType => .bind (.mapM _ (silent_type a)) fun types => ?_
  refine .bind (silent_shape _) fun functionType => .bind silent_freshId fun id => ?_
  exact .bind (silent_body m s id returnType functionType types Draft.empty) fun _ => .pure _

/-- Functions are constructed without anything being written. -/
theorem silent_buildFunction (a : Assembly) (key : FunctionKey) :
    Construct.Silent a (Construct.buildFunction a key) := by
  refine .bind (silent_methodDef a key.method) fun m => ?_
  dsimp only
  split
  · exact .fail _
  · exact silent_buildSpecialized m key _

/-! ## What is asked of a run -/

/-- A request asks for entities; only one for an id takes an id. -/
theorem confined_task {acts : lowering.Action → Prop} (a : Assembly) (request : Request)
    (hfresh : request = .freshId → acts .freshId) :
    Task.Confined (I := lowering) acts (Askable a) (request.task a) := by
  cases request with
  | type id => exact .map (silent_returnType a id) _
  | shape s => exact .map (silent_shape s) _
  | named owner name =>
    refine .bind (.ofOption _ _) fun t => .bind (silent_representation? a t name) fun resolved => ?_
    cases resolved <;> exact .pure _
  | constant type bits => exact .map (silent_constant type bits) _
  | global field => exact .map (silent_global a field) _
  | function key => exact .map (silent_function key) _
  | method id => exact .bind (.ofOption _ _) fun m => .map (silent_function _) _
  | freshId => exact .map (.perform (I := lowering) (hfresh rfl)) _

theorem silent_task (a : Assembly) (request : Request) : Construct.Silent a (request.task a) :=
  confined_task a request fun _ => rfl

/-- Threads write nothing of their own. -/
theorem silent_inTurn (a : Assembly) (requests : List Request) :
    Construct.Silent a (Request.inTurn a requests) :=
  .forM _ fun request => .bind (.attempt (silent_task a request)) fun _ => .pure _

theorem silent_entryPoints (a : Assembly) (entries : List EntryPoint) :
    Construct.Silent a (Construct.entryPoints a entries) :=
  .forM _ fun entry => .bind (silent_methodDef a entry.method) fun _ =>
    .bind (silent_function _) fun _ => .pure _

end ShaderLowering
