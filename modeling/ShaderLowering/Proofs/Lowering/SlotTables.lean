import Mathlib.Data.Nat.Basic
import ShaderLowering.Lowering.Session
import ShaderLowering.Proofs.Assembly.Slots
import ShaderLowering.Proofs.Threads.Delivery

/-!
# Slot tables

The numbers in the code of a method are looked up twice: in the method, for declared types, and in the draft
of the function that it becomes, for variables.  Whatever constructions are answered, the slots of the draft
are those of the method with the specialized types, from the end of their declaration on
(`tabulates_of_mayEnd`), since nothing but the declaration adds a slot (`AddsSlots`).

With the numbers that are told when locals are declared this makes three computations that agree.
-/

namespace ShaderLowering

open Construction
open Spirv

/-! ## What adds slots -/

/-- A step of writing a function adds slots of some types, whatever it is answered. -/
def BodyWriter.AddsSlots {α : Type} (types : List TypeId) (x : BodyWriter α) : Prop :=
  ∀ (d d' : Draft) (v : α), (x.run d).MayEnd (v, d') →
    d'.slots.map LocalSlot.type = d.slots.map LocalSlot.type ++ types

namespace BodyWriter

variable {a : Assembly} {α β γ : Type} {types types' : List TypeId}

namespace AddsSlots

variable {x : BodyWriter α} {f : α → BodyWriter β}

theorem append (hx : x.AddsSlots types) (hf : ∀ v, (f v).AddsSlots types') :
    (x >>= f).AddsSlots (types ++ types') := by
  intro d d'' w h
  rw [StateT.run_bind] at h
  obtain ⟨⟨v, d'⟩, hv, hw⟩ := Task.MayEnd.of_bind h
  rw [hf v d' d'' w hw, hx d d' v hv, List.append_assoc]

/-- A step that adds nothing may come first. -/
theorem bind (hx : x.AddsSlots []) (hf : ∀ v, (f v).AddsSlots types) : (x >>= f).AddsSlots types :=
  append hx hf

theorem modify {f : Draft → Draft}
    (hf : ∀ d, (f d).slots.map LocalSlot.type = d.slots.map LocalSlot.type ++ types) :
    (modify f : BodyWriter PUnit).AddsSlots types := by
  intro d d' v h
  rw [StateT.run_modify] at h
  cases h
  exact hf d

theorem pure (v : α) : (Pure.pure v : BodyWriter α).AddsSlots [] := by
  intro d d' v h
  cases h
  exact (List.append_nil _).symm

/-- The tasks that a writer is made of know nothing of the draft. -/
theorem lift (t : Construct α) : (liftM t : BodyWriter α).AddsSlots [] := by
  intro d d' v h
  obtain ⟨v', -, hend⟩ := Task.MayEnd.of_bind h
  cases hend
  exact (List.append_nil _).symm

theorem get : (get : BodyWriter Draft).AddsSlots [] := by
  intro d d' v h
  cases h
  exact (List.append_nil _).symm

theorem fail (fault : Fault) : (BodyWriter.fail fault : BodyWriter α).AddsSlots [] :=
  .lift _

theorem freshId : BodyWriter.freshId.AddsSlots [] :=
  .lift _

theorem write (op : Op) (operands : List Word) : (BodyWriter.write op operands).AddsSlots [] :=
  .modify fun _ => (List.append_nil _).symm

theorem mapM {k : γ → BodyWriter α} (xs : List γ) (hk : ∀ x, (k x).AddsSlots []) :
    (xs.mapM k).AddsSlots [] := by
  induction xs with
  | nil => exact .pure []
  | cons x xs ih =>
    rw [List.mapM_cons]
    exact .bind (hk x) fun v => .bind ih fun vs => .pure (v :: vs)

/-- Each member of a list adds its own slots. -/
theorem forM {k : γ → BodyWriter PUnit} (own : γ → List TypeId) (xs : List γ)
    (hk : ∀ x ∈ xs, (k x).AddsSlots (own x)) : (xs.forM k).AddsSlots (xs.flatMap own) := by
  induction xs with
  | nil => exact .pure _
  | cons x xs ih =>
    rw [List.flatMap_cons]
    exact append (hk x List.mem_cons_self) fun _ => ih fun x' hx' => hk x' (List.mem_cons_of_mem x hx')

end AddsSlots

/-! ## Operations -/

section Operations

variable (m : MethodDef)

theorem addsSlots_slot (number : Il.Slot) : (slot m number).AddsSlots [] :=
  .bind .get fun _ => .lift _

theorem addsSlots_loadSlot (number : Il.Slot) : (loadSlot m number).AddsSlots [] :=
  .bind (addsSlots_slot m number) fun _ => .bind .freshId fun _ => .bind (.write _ _) fun _ => .pure _

theorem addsSlots_storeSlot (number : Il.Slot) (value : Id) : (storeSlot m number value).AddsSlots [] :=
  .bind (addsSlots_slot m number) fun _ => .write _ _

theorem addsSlots_argumentType (declared : TypeId) (argument : Il.Slot) :
    (argumentType a m declared argument).AddsSlots [] := by
  refine .bind (.lift _) fun t => ?_
  split
  · exact .bind (addsSlots_slot m argument) fun _ => .pure _
  · exact .pure _

theorem addsSlots_call (result : Option Il.Slot) (wire : UInt64) (arguments : List Il.Slot) :
    (call a m result wire arguments).AddsSlots [] := by
  refine .bind (.lift _) fun target => ?_
  dsimp only
  split
  case' isTrue => refine .bind (.fail _) fun _ => ?_
  all_goals
    refine .bind (.mapM _ fun _ => addsSlots_argumentType m _ _) fun parameters => ?_
    refine .bind (.lift _) fun function => .bind (.mapM arguments (addsSlots_loadSlot m)) fun values => ?_
    refine .bind .freshId fun value => .bind (.write _ _) fun _ => ?_
    refine .bind (.modify fun d => (List.append_nil _).symm) fun _ => ?_
    cases result with
    | none => exact .pure _
    | some number => exact addsSlots_storeSlot m number value

theorem addsSlots_loadConstant (destination : Il.Slot) (bits : Word) :
    (loadConstant m destination bits).AddsSlots [] :=
  .bind (addsSlots_slot m destination) fun _ => .bind (.lift _) fun _ =>
    addsSlots_storeSlot m destination _

theorem addsSlots_operation (op : Il.Operation) : (operation a m op).AddsSlots [] := by
  cases op with
  | call result wire arguments => exact addsSlots_call m result wire arguments
  | ret => exact .write _ _
  | returnValue value =>
    cases value with
    | none => exact .fail _
    | some number => exact .bind (addsSlots_loadSlot m number) fun _ => .write _ _
  | load destination source =>
    exact .bind (addsSlots_loadSlot m source) fun _ => addsSlots_storeSlot m destination _
  | loadField destination wire =>
    refine .bind (.lift _) fun _ => .bind .freshId fun _ => ?_
    exact .bind (.write _ _) fun _ => addsSlots_storeSlot m destination _
  | storeField wire source =>
    exact .bind (.lift _) fun _ => .bind (addsSlots_loadSlot m source) fun _ => .write _ _
  | loadUInt32 destination value => exact addsSlots_loadConstant m destination value
  | loadFloat32 destination bits => exact addsSlots_loadConstant m destination bits

/-- No instruction adds a slot. -/
theorem addsSlots_instruction (i : Il.Instruction) : (instruction a m i).AddsSlots [] := by
  unfold instruction
  split
  · exact .fail _
  · exact addsSlots_operation m _

end Operations

/-! ## Functions -/

theorem addsSlots_signature (id returnType functionType : Id) (parameterTypes : List Id) :
    (signature id returnType functionType parameterTypes).AddsSlots [] :=
  .bind (.write _ _) fun _ => .mapM _ fun _ => .bind .freshId fun _ => .bind (.write _ _) fun _ => .pure _

theorem addsSlots_declareSlot (type : TypeId) : (declareSlot a type).AddsSlots [type] := by
  refine .bind (.lift _) fun valueType => .bind (.lift _) fun pointerType => ?_
  refine .bind .freshId fun pointer => .bind (.write _ _) fun _ => .modify fun d => ?_
  exact List.map_append

/-- The declaration adds a slot for each that is given a variable, of the specialized type. -/
theorem addsSlots_declareSlots (m : MethodDef) (s : Specialization) :
    (declareSlots a m s).AddsSlots (m.backedTypes.map s.apply) := by
  rw [declareSlots_eq, List.map_eq_flatMap]
  exact .forM (fun declared => [s.apply declared]) _ fun declared _ => addsSlots_declareSlot _

/-- What is written after the declaration of the slots, step by step: the incoming values are stored, the
instructions are lowered, and the function is ended. -/
def steps (a : Assembly) (m : MethodDef) (slots : List LocalSlot) (parameters : List Id) :
    List (BodyWriter PUnit) :=
  (slots.zip parameters).map (fun pair => write .store [pair.1.pointer.raw, pair.2.raw]) ++
    (m.code.instructions.map (instruction a m) ++ [write .functionEnd []])

/-- Writes a function up to some number of steps after the declaration of its slots; answers the steps that
are left. -/
def bodyUpTo (a : Assembly) (m : MethodDef) (s : Specialization) (id returnType functionType : Id)
    (parameterTypes : List Id) (count : Nat) : BodyWriter (List (BodyWriter PUnit)) := do
  let parameters ← signature id returnType functionType parameterTypes
  let label ← freshId
  write .label [label.raw]
  declareSlots a m s
  let draft ← get
  let rest := steps a m draft.slots parameters
  (rest.take count).forM fun step => step
  pure (rest.drop count)

section Progress

variable (m : MethodDef) (s : Specialization)

/-- All steps together are what follows the declaration in the body of a function. -/
theorem forM_steps (slots : List LocalSlot) (parameters : List Id) :
    ((steps a m slots parameters).forM fun step => step) =
      ((slots.zip parameters).forM fun pair => write .store [pair.1.pointer.raw, pair.2.raw]) >>= fun _ =>
        m.code.instructions.forM (instruction a m) >>= fun _ => write .functionEnd [] := by
  rw [steps, List.forM_eq_forM, List.forM_append, List.forM_append, List.forM_map, List.forM_map,
    List.forM_cons, List.forM_nil, bind_pure_unit]
  rfl

/-- A function may be written up to any step after the declaration of its slots, and then to its end. -/
theorem body_eq_bodyUpTo (id returnType functionType : Id) (parameterTypes : List Id) (count : Nat) :
    body a m s id returnType functionType parameterTypes =
      bodyUpTo a m s id returnType functionType parameterTypes count >>= fun rest =>
        rest.forM fun step => step := by
  have hsplit : ∀ all : List (BodyWriter PUnit), (all.forM fun step => step) =
      ((all.take count).forM fun step => step) >>= fun _ => (all.drop count).forM fun step => step := by
    intro all
    conv_lhs => rw [← List.take_append_drop count all]
    exact List.forM_append
  simp only [body, bodyUpTo, bind_assoc, pure_bind, ← hsplit, forM_steps]

theorem addsSlots_step {slots : List LocalSlot} {parameters : List Id} {step : BodyWriter PUnit}
    (hstep : step ∈ steps a m slots parameters) : step.AddsSlots [] := by
  obtain hstore | hrest := List.mem_append.mp hstep
  · obtain ⟨pair, -, rfl⟩ := List.mem_map.mp hstore
    exact .write _ _
  · obtain hcode | hend := List.mem_append.mp hrest
    · obtain ⟨i, -, rfl⟩ := List.mem_map.mp hcode
      exact addsSlots_instruction m i
    · obtain rfl := List.mem_singleton.mp hend
      exact .write _ _

/-- Up to any step after their declaration, the slots are those of the method. -/
theorem addsSlots_bodyUpTo (id returnType functionType : Id) (parameterTypes : List Id) (count : Nat) :
    (bodyUpTo a m s id returnType functionType parameterTypes count).AddsSlots
      (m.backedTypes.map s.apply) := by
  refine .bind (addsSlots_signature id returnType functionType parameterTypes) fun parameters => ?_
  refine .bind .freshId fun label => .bind (.write _ _) fun _ => ?_
  rw [← List.append_nil (m.backedTypes.map s.apply)]
  refine .append (addsSlots_declareSlots m s) fun _ => .bind .get fun draft => ?_
  have hsteps := AddsSlots.forM (k := fun step : BodyWriter PUnit => step) (fun _ => [])
    ((steps a m draft.slots parameters).take count) fun step hstep =>
      addsSlots_step m (List.mem_of_mem_take hstep)
  rw [List.flatMap_eq_nil_iff.mpr fun _ _ => rfl] at hsteps
  exact .bind hsteps fun _ => .pure _

end Progress

end BodyWriter

/-! ## The table of a method -/

/-- The slots of a draft are those of a method, and each has the specialization of its declared type. -/
structure Draft.Tabulates (m : MethodDef) (s : Specialization) (d : Draft) : Prop where
  count : d.slots.length = m.slotCount
  type : ∀ i slot, d.slots[i]? = some slot → (m.slotType? (.ofNat i)).map s.apply = some slot.type

theorem Draft.Tabulates.of_types {m : MethodDef} {s : Specialization} {d : Draft}
    (hcount : m.slotCount < UInt32.size)
    (htypes : d.slots.map LocalSlot.type = m.backedTypes.map s.apply) : d.Tabulates m s := by
  rw [MethodDef.backedTypes_eq hcount] at htypes
  have hlength : d.slots.length = m.slotCount := by
    rw [← m.length_slotTypes, ← List.length_map LocalSlot.type, htypes, List.length_map]
  refine ⟨hlength, fun i slot hslot => ?_⟩
  obtain ⟨hi, -⟩ := List.getElem?_eq_some_iff.mp hslot
  rw [MethodDef.slotType?_ofNat (lt_trans (hlength ▸ hi) hcount), ← List.getElem?_map, ← htypes,
    List.getElem?_map, hslot]
  rfl

/-- What a session returns of a construction is what it may end with. -/
theorem Session.mayEnd_of_run {α : Type} {a : Assembly} {task : Construct α} {s : Session} {v : α}
    (h : (s.run a task).1.value? = some v) : task.MayEnd v :=
  Task.mayEnd_of_run h

/-- However far a function is written after the declaration of its slots, its draft has a table of them. -/
theorem tabulates_of_mayEnd {a : Assembly} {m : MethodDef} {s : Specialization}
    {id returnType functionType : Id} {parameterTypes : List Id} {count : Nat}
    (hcount : m.slotCount < UInt32.size) {rest : List (BodyWriter PUnit)} {draft : Draft}
    (hend : ((BodyWriter.bodyUpTo a m s id returnType functionType parameterTypes count).run
      .empty).MayEnd (rest, draft)) : draft.Tabulates m s :=
  .of_types hcount (BodyWriter.addsSlots_bodyUpTo m s id returnType functionType parameterTypes count
    _ _ _ hend)

/-- Whatever edits put an assembly together, in any order: the numbers that have been told for the locals of
a method come after those of its parameters and differ from each other, and the method has the declared types
under all these numbers and no type under any other.  However far the method is lowered after the declaration
of its slots, and whatever is answered to it, the draft has as many slots, with the specialized types in the
same order. -/
theorem slots_agree (name : String) (edits : List Edit) {id : MethodId} {m : MethodDef}
    (hm : ((Assembly.empty name).editAll edits).method? id = some m)
    (hcount : m.slotCount < UInt32.size) :
    m.LaidOut (Assembly.localsOf id (.empty name) edits) ∧
      ∀ (s : Specialization) (function returnType functionType : Id) (parameterTypes : List Id)
        (count : Nat),
        BodyWriter.body ((Assembly.empty name).editAll edits) m s function returnType functionType
            parameterTypes =
          (BodyWriter.bodyUpTo ((Assembly.empty name).editAll edits) m s function returnType functionType
              parameterTypes count >>= fun rest => rest.forM fun step => step) ∧
        ∀ rest draft,
          ((BodyWriter.bodyUpTo ((Assembly.empty name).editAll edits) m s function returnType functionType
            parameterTypes count).run .empty).MayEnd (rest, draft) → draft.Tabulates m s :=
  ⟨laidOut_editAll name edits hm hcount, fun s function returnType functionType parameterTypes count =>
    ⟨BodyWriter.body_eq_bodyUpTo m s function returnType functionType parameterTypes count,
      fun _ _ hend => tabulates_of_mayEnd hcount hend⟩⟩

section Blend

/-- A method with a receiver and a parameter of any type.  Its two locals are declared in turns with its
code, with another method and with a method that does not exist. -/
def blending : List Edit :=
  [.type "Shader" [], .generic "T", .method ⟨0⟩ "blend" none [⟨1⟩] [], .localSlot ⟨0⟩ ⟨0⟩,
    .write ⟨0⟩ (.statement (.load 2 1)), .method ⟨0⟩ "main" none [] [.static], .localSlot ⟨1⟩ ⟨0⟩,
    .localSlot ⟨0⟩ ⟨1⟩, .localSlot ⟨2⟩ ⟨0⟩, .write ⟨0⟩ (.statement (.load 3 2)),
    .write ⟨0⟩ (.statement .ret)]

/-- The method that comes of it. -/
def blend : MethodDef :=
  let declared : MethodDef :=
    ⟨⟨0⟩, ⟨0⟩, "blend", "Shader::blend", none, [⟨1⟩], [⟨0⟩, ⟨1⟩], [], .empty⟩
  ((declared.push (.load 2 1)).push (.load 3 2)).push .ret

/-- The method for shaders, up to its second instruction. -/
def blendUpTo : Construct (List (BodyWriter PUnit) × Draft) :=
  (BodyWriter.bodyUpTo ((Assembly.empty "A").editAll blending) blend ⟨[(⟨1⟩, ⟨0⟩)]⟩ ⟨7⟩ ⟨1⟩ ⟨2⟩ [⟨3⟩, ⟨3⟩]
    3).run .empty

/-- It is written that far in a session, and three steps are left. -/
theorem blendUpTo_mayEnd : ∃ rest draft, blendUpTo.MayEnd (rest, draft) ∧ rest.length = 3 := by
  have hreturned : ((Session.start.run ((Assembly.empty "A").editAll blending) blendUpTo).1.value?.map
      fun r => r.1.length) = some 3 := by decide +kernel
  obtain ⟨⟨rest, draft⟩, hrun, hrest⟩ := Option.map_eq_some_iff.mp hreturned
  exact ⟨rest, draft, Session.mayEnd_of_run hrun, hrest⟩

/-- The locals are told to be slots 2 and 3, and so they are in the table of the function. -/
theorem blend_slots_agree :
    ((Assembly.empty "A").editAll blending).method? ⟨0⟩ = some blend ∧ blend.slotCount < UInt32.size ∧
      Assembly.localsOf ⟨0⟩ (.empty "A") blending = [(2, ⟨0⟩), (3, ⟨1⟩)] ∧
      blend.LaidOut [(2, ⟨0⟩), (3, ⟨1⟩)] ∧
      ∃ rest draft, blendUpTo.MayEnd (rest, draft) ∧ rest.length = 3 ∧
        draft.Tabulates blend ⟨[(⟨1⟩, ⟨0⟩)]⟩ := by
  have hm : ((Assembly.empty "A").editAll blending).method? ⟨0⟩ = some blend := rfl
  have hcount : blend.slotCount < UInt32.size := by decide
  obtain ⟨hlaid, htable⟩ := slots_agree "A" blending hm hcount
  obtain ⟨rest, draft, hend, hrest⟩ := blendUpTo_mayEnd
  exact ⟨hm, hcount, rfl, hlaid, rest, draft, hend, hrest, (htable _ _ _ _ _ _).2 rest draft hend⟩

end Blend

end ShaderLowering
