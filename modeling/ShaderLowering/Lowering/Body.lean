import ShaderLowering.Lowering.Globals
import ShaderLowering.Lowering.Specialization

/-!
# Function bodies

A method becomes one function.  Each of its slots is backed by a variable of the function; the
incoming parameters are stored into the first slots, and every operation moves values between slots
by loads and stores.

A `BodyWriter` is a construction task that carries the `Draft` written so far: the words of the
body, the slots, and the callees in call order.  An instruction is decoded as a whole before
anything is looked up or written for it.
-/

namespace ShaderLowering

open Construction (Task)
open Spirv

/-- A slot of the method being lowered: its variable, its concrete type, and that type's id. -/
structure LocalSlot where
  pointer : Id
  type : TypeId
  valueType : Id
  deriving DecidableEq, Repr

/-- A function as far as it is written. -/
structure Draft where
  body : List Word
  slots : List LocalSlot
  callees : List Function

def Draft.empty : Draft :=
  ⟨[], [], []⟩

/-- A construction task that writes a function. -/
abbrev BodyWriter := StateT Draft Construct

namespace BodyWriter

def fail {α : Type} (fault : Fault) : BodyWriter α :=
  liftM (Task.fail fault : Construct α)

def ofOption {α : Type} (fault : Fault) (value : Option α) : BodyWriter α :=
  liftM (Task.ofOption fault value : Construct α)

def freshId : BodyWriter Id :=
  liftM Construct.freshId

def write (op : Op) (operands : List Word) : BodyWriter Unit :=
  modify fun draft => { draft with body := draft.body ++ emit op operands }

/-! ## Slots -/

/-- Declares a slot of a concrete type. -/
def declareSlot (a : Assembly) (type : TypeId) : BodyWriter Unit := do
  let valueType ← Construct.type a type
  let pointerType ← Construct.shape (.pointer .function valueType)
  let pointer ← freshId
  write .variable [pointerType.raw, pointer.raw, StorageClass.function.code]
  modify fun draft => { draft with slots := draft.slots ++ [⟨pointer, type, valueType⟩] }

/-- Declares the slots of a method one after another, each with the concrete type that belongs to its
position.  They are counted by a word. -/
def declareSlots (a : Assembly) (m : MethodDef) (s : Specialization) : BodyWriter Unit :=
  (List.range (UInt32.ofNat m.slotCount).toNat).forM fun position => do
    let declared ← ofOption (.unresolvedSlot m.fullName (UInt32.ofNat position))
      (m.slotTypeAt? position)
    declareSlot a (s.apply declared)

/-- To look up the positions of a list in turn is to go through its members. -/
theorem forM_range {α : Type} (xs : List α) (look : Nat → Option α) (fault : Nat → Fault)
    (k : α → BodyWriter PUnit) (hlook : ∀ position < xs.length, look position = xs[position]?) :
    ((List.range xs.length).forM fun position => do k (← ofOption (fault position) (look position))) =
      xs.forM k := by
  induction xs generalizing look fault with
  | nil => rfl
  | cons x xs ih =>
    -- The other positions are one more than those among the other members.
    have hrest : (((List.range xs.length).map Nat.succ).forM fun position => do
        k (← ofOption (fault position) (look position))) = xs.forM k :=
      List.forM_map.trans <| ih (fun position => look (position + 1)) (fun position => fault (position + 1))
        fun position hposition => hlook (position + 1) (Nat.succ_lt_succ hposition)
    rw [List.length_cons, List.range_succ_eq_map]
    have hfirst : look 0 = some x := hlook 0 (Nat.succ_pos _)
    show ((do k (← ofOption (fault 0) (look 0))) >>= fun _ => _) = _
    rw [hfirst]
    exact congrArg (fun rest => k x >>= fun _ => rest) hrest

/-- No position is without a type, so slots are declared for their types in order. -/
theorem declareSlots_eq (a : Assembly) (m : MethodDef) (s : Specialization) :
    declareSlots a m s = m.backedTypes.forM fun declared => declareSlot a (s.apply declared) := by
  have hlook : ∀ position < m.backedTypes.length,
      m.slotTypeAt? position = m.backedTypes[position]? := fun _ hposition =>
    m.slotTypeAt?_backed (m.length_backedTypes ▸ hposition)
  have hcount : (UInt32.ofNat m.slotCount).toNat = m.backedTypes.length := m.length_backedTypes.symm
  rw [declareSlots, hcount]
  exact forM_range m.backedTypes m.slotTypeAt? _ (fun declared => declareSlot a (s.apply declared)) hlook

def slot (m : MethodDef) (number : Il.Slot) : BodyWriter LocalSlot := do
  let draft ← get
  ofOption (.unresolvedSlot m.fullName number) draft.slots[number.toNat]?

def loadSlot (m : MethodDef) (number : Il.Slot) : BodyWriter Id := do
  let source ← slot m number
  let value ← freshId
  write .load [source.valueType.raw, value.raw, source.pointer.raw]
  pure value

def storeSlot (m : MethodDef) (number : Il.Slot) (value : Id) : BodyWriter Unit := do
  let destination ← slot m number
  write .store [destination.pointer.raw, value.raw]

/-! ## Operations -/

def methodDef (a : Assembly) (id : MethodId) : Construct MethodDef :=
  Task.ofOption (I := lowering) (.unresolvedMethod id.toWire) (a.method? id)

def callee (a : Assembly) (wire : UInt64) : Construct MethodDef :=
  match EntityId.ofWire? wire with
  | none => Task.fail (I := lowering) (.unresolvedMethod wire)
  | some id => methodDef a id

/-- The type that a call gives to a parameter: that of the argument's slot for a placeholder, the
declared type otherwise. -/
def argumentType (a : Assembly) (m : MethodDef) (declared : TypeId) (argument : Il.Slot) :
    BodyWriter TypeId := do
  let t ← Construct.typeDef a declared
  if t.isGeneric then
    let source ← slot m argument
    pure source.type
  else
    pure declared

/-- Calls a method with the values of slots, and stores the result if a slot is bound to it. -/
def call (a : Assembly) (m : MethodDef) (result : Option Il.Slot) (wire : UInt64)
    (arguments : List Il.Slot) : BodyWriter Unit := do
  let target ← callee a wire
  let expected := target.effectiveParameters.length
  if arguments.length ≠ expected then
    fail (.argumentCountMismatch target.fullName arguments.length expected)
  let parameters ← (target.effectiveParameters.zip arguments).mapM fun pair =>
    argumentType a m pair.1 pair.2
  -- The callee is complete before anything of the call is written.
  let function ← (Task.ask (I := lowering) (.function ⟨target.id, parameters⟩) : Construct Function)
  let values ← arguments.mapM (loadSlot m)
  let value ← freshId
  write .functionCall
    (function.returnType.raw :: value.raw :: function.id.raw :: values.map Id.raw)
  modify fun draft => { draft with callees := draft.callees ++ [function] }
  match result with
  | some number => storeSlot m number value
  | none => pure ()

def global (a : Assembly) (wire : UInt64) : Construct GlobalVariable :=
  match EntityId.ofWire? wire with
  | none => Task.fail (I := lowering) (.unresolvedField wire)
  | some id => Construct.global a id

/-- Stores a constant of the slot's type into a slot. -/
def loadConstant (m : MethodDef) (destination : Il.Slot) (bits : Word) : BodyWriter Unit := do
  let target ← slot m destination
  let constant ← Construct.constant target.valueType bits
  storeSlot m destination constant

def operation (a : Assembly) (m : MethodDef) : Il.Operation → BodyWriter Unit
  | .call result wire arguments => call a m result wire arguments
  | .ret => write .ret []
  | .returnValue none => fail (.missingResultBinding m.fullName)
  | .returnValue (some number) => do
    let value ← loadSlot m number
    write .returnValue [value.raw]
  | .load destination source => do
    let value ← loadSlot m source
    storeSlot m destination value
  | .loadField destination wire => do
    let source ← global a wire
    let value ← freshId
    write .load [source.valueType.raw, value.raw, source.id.raw]
    storeSlot m destination value
  | .storeField wire source => do
    let target ← global a wire
    let value ← loadSlot m source
    write .store [target.id.raw, value.raw]
  | .loadUInt32 destination value => loadConstant m destination value
  | .loadFloat32 destination bits => loadConstant m destination bits

/-- Lowers one instruction; a tail that ends too early is reported before anything is done. -/
def instruction (a : Assembly) (m : MethodDef) (i : Il.Instruction) : BodyWriter Unit :=
  match i.decode with
  | .error cause => fail (.malformedIl m.fullName cause)
  | .ok op => operation a m op

/-! ## Functions -/

/-- Writes the instruction that begins a function, and one per parameter; answers the incoming
values. -/
def signature (id returnType functionType : Id) (parameterTypes : List Id) :
    BodyWriter (List Id) := do
  write .function [returnType.raw, id.raw, noFunctionControl, functionType.raw]
  parameterTypes.mapM fun parameterType => do
    let value ← freshId
    write .functionParameter [parameterType.raw, value.raw]
    pure value

/-- Writes a whole function after its types are known. -/
def body (a : Assembly) (m : MethodDef) (s : Specialization) (id returnType functionType : Id)
    (parameterTypes : List Id) : BodyWriter Unit := do
  let parameters ← signature id returnType functionType parameterTypes
  let label ← freshId
  write .label [label.raw]
  declareSlots a m s
  let draft ← get
  -- The parameters have the first slots.
  (draft.slots.zip parameters).forM fun pair => write .store [pair.1.pointer.raw, pair.2.raw]
  m.code.instructions.forM (instruction a m)
  write .functionEnd []

end BodyWriter

namespace Construct

/-- Constructs the function of a method under a specialization. -/
def buildSpecialized (a : Assembly) (m : MethodDef) (key : FunctionKey) (s : Specialization) :
    Construct Function := do
  let returnType ← returnType a (m.returnType.map s.apply)
  let parameterTypes ← key.parameters.mapM (type a)
  let functionType ← shape (.function returnType parameterTypes)
  let id ← freshId
  let (_, draft) ←
    (BodyWriter.body a m s id returnType functionType parameterTypes).run Draft.empty
  pure ⟨id, key, returnType, draft.body, draft.callees⟩

def buildFunction (a : Assembly) (key : FunctionKey) : Construct Function := do
  let m ← BodyWriter.methodDef a key.method
  match Specialization.bind a m key with
  | .error fault => Task.fail (I := lowering) fault
  | .ok s => buildSpecialized a m key s

def function (key : FunctionKey) : Construct Function :=
  Task.ask (I := lowering) (.function key)

end Construct

end ShaderLowering
