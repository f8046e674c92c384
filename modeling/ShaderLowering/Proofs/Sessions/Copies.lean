import ShaderLowering.Proofs.Sessions.Likeness
import ShaderLowering.Proofs.Sessions.Writing

/-!
# Constructions take the same turns in every state

Ids are all that the construction of an entity sees of the state that it runs in, and no construction
decides anything by an id: it hands ids on to shapes, constants and instructions.  So two constructions of
one entity are alike (`alike_factory`), with shapes and constants of other ids standing for each other.

A function is written into a draft, of which only the types of the slots are ever looked at; `Parallel` is
what is shown of two steps that write a function into drafts with slots of the same types.
-/

namespace ShaderLowering

open Construction (Task Likeness)
open Spirv

/-- A construction can come upon a fault; one fault is only for those who put a module together. -/
def Fault.Found : Fault → Prop
  | .unreachableEntryPoint _ => False
  | _ => True

/-- Keys that stand for each other: the same, or both of a shape or a constant. -/
inductive Twins : Key → Key → Prop
  | same (k : Key) : Twins k k
  | leaf {k k' : Key} (h : k.stage = 0) (h' : k'.stage = 0) : Twins k k'

/-- Constructions of an assembly are alike up to the ids in shapes and constants. -/
def likeness : Likeness lowering where
  twin := Twins
  cause := Fault.Found

/-- Two constructions take the same turns and end with values that are related. -/
abbrev Construct.Alike {α α' : Type} (R : α → α' → Prop) (t : Construct α) (t' : Construct α') : Prop :=
  Task.Alike likeness R t t'

variable {a : Assembly} {α α' β β' : Type}

/-! ## Types and variables -/

section Requests

theorem alike_ask {k k' : Key} (h : Twins k k') :
    Construct.Alike (fun _ _ => True) (Task.ask (I := lowering) k) (Task.ask (I := lowering) k') :=
  Task.Alike.ask (I := lowering) (L := likeness) h

theorem alike_act (action action' : Action) :
    Construct.Alike (fun _ _ => True) (Task.perform (I := lowering) action)
      (Task.perform (I := lowering) action') :=
  Task.Alike.perform (I := lowering) (L := likeness) action action'

theorem alike_shape (s s' : Shape) :
    Construct.Alike (fun _ _ => True) (Construct.shape s) (Construct.shape s') :=
  alike_ask (show Twins (.shape s) (.shape s') from .leaf rfl rfl)

theorem alike_constant (type type' : Id) (bits bits' : Word) :
    Construct.Alike (fun _ _ => True) (Construct.constant type bits) (Construct.constant type' bits') :=
  alike_ask (show Twins (.constant type bits) (.constant type' bits') from .leaf rfl rfl)

/-- The same is looked up. -/
theorem alike_lookup {fault : Fault} (o : Option α) (hfault : fault.Found := by trivial) :
    Construct.Alike (· = ·) (Task.ofOption (I := lowering) fault o) (Task.ofOption (I := lowering) fault o) :=
  .ofOption hfault rfl fun _ _ h h' => Option.some.inj (h.symm.trans h')

theorem alike_type (a : Assembly) (id : TypeId) :
    Construct.Alike (fun _ _ => True) (Construct.type a id) (Construct.type a id) :=
  .bind (alike_lookup _) fun _ _ _ => alike_ask (.same (.type id))

theorem alike_types (a : Assembly) (ids : List TypeId) :
    Construct.Alike (List.Forall₂ fun _ _ => True) (ids.mapM (Construct.type a))
      (ids.mapM (Construct.type a)) :=
  .mapM (alike_type a)

theorem alike_returnType (a : Assembly) (id : Option TypeId) :
    Construct.Alike (fun _ _ => True) (Construct.returnType a id) (Construct.returnType a id) := by
  cases id with
  | none => exact alike_shape _ _
  | some id => exact alike_type a id

theorem alike_representation? (a : Assembly) (t : TypeDef) (name : String) :
    Construct.Alike (fun (o o' : Option Id) => o.isSome = o'.isSome) (Construct.representation? a t name)
      (Construct.representation? a t name) := by
  have hplain : ∀ s s' : Shape, Construct.Alike (fun (o o' : Option Id) => o.isSome = o'.isSome)
      (some <$> Construct.shape s) (some <$> Construct.shape s') := fun s s' =>
    .map (.mono (alike_shape s s') fun _ _ _ => rfl)
  unfold Construct.representation?
  split
  · exact .pure rfl
  · exact .fail trivial
  · exact hplain _ _
  · exact hplain _ _
  · exact hplain _ _
  · next element size _ =>
    refine .bind (alike_lookup _) fun e e' heq => ?_
    subst heq
    refine .bind (alike_type a e.id) fun i i' _ => ?_
    refine .bind (alike_lookup _) fun n n' _ => hplain _ _

/-- The type that stands for a front-end type is made alike. -/
theorem alike_buildType (a : Assembly) (t : TypeDef) :
    Construct.Alike (fun _ _ => True) (Construct.buildType a t) (Construct.buildType a t) := by
  unfold Construct.buildType
  split
  · exact .fail trivial
  · split
    · exact .bind (.mapM fun f => alike_type a f.type) fun _ _ _ =>
        alike_act (.declare _) (.declare _)
    · exact .fail trivial
    · refine .bind (alike_representation? a t _) fun o o' hsome => ?_
      exact .ofOption trivial hsome fun _ _ _ _ => trivial

/-- The global variable behind a field is made alike. -/
theorem alike_buildGlobal (a : Assembly) (id : FieldId) (field : FieldDef) :
    Construct.Alike (fun _ _ => True) (Construct.buildGlobal a id field)
      (Construct.buildGlobal a id field) := by
  refine .bind (alike_type a field.type) fun i i' _ => .bind (alike_shape _ _) fun j j' _ => ?_
  refine .bind (alike_act (.declare _) (.declare _)) fun v v' _ => ?_
  have hexpose : ∀ made made' : GlobalVariable, Construct.Alike (fun _ _ => True)
      (do Construct.expose made; pure made) (do Construct.expose made'; pure made') := fun _ _ =>
    .bind (alike_act (.expose _) (.expose _)) fun _ _ _ => .pure trivial
  dsimp only
  split
  · exact .bind (alike_act (.decorate _ _) (.decorate _ _)) fun _ _ _ => hexpose _ _
  · exact hexpose _ _

end Requests

/-! ## Drafts -/

/-- Two drafts have slots of the same types. -/
def SameSlots (d d' : Draft) : Prop :=
  d.slots.map LocalSlot.type = d'.slots.map LocalSlot.type

/-- Two steps that write a function take the same turns from drafts with slots of the same types to such
drafts. -/
def Parallel (R : α → α' → Prop) (x : BodyWriter α) (x' : BodyWriter α') : Prop :=
  ∀ d d', SameSlots d d' →
    Construct.Alike (fun r r' => SameSlots r.2 r'.2 ∧ R r.1 r'.1) (x.run d) (x'.run d')

namespace Parallel

variable {R R' : α → α' → Prop} {S : β → β' → Prop} {x : BodyWriter α} {x' : BodyWriter α'}
  {f : α → BodyWriter β} {f' : α' → BodyWriter β'}

theorem mono (hx : Parallel R x x') (himp : ∀ v v', R v v' → R' v v') : Parallel R' x x' :=
  fun d d' hd => .mono (hx d d' hd) fun _ _ hr => ⟨hr.1, himp _ _ hr.2⟩

theorem bind (hx : Parallel R x x') (hf : ∀ v v', R v v' → Parallel S (f v) (f' v')) :
    Parallel S (x >>= f) (x' >>= f') := by
  intro d d' hd
  rw [StateT.run_bind, StateT.run_bind]
  exact .bind (hx d d' hd) fun r r' hr => hf r.1 r'.1 hr.2 r.2 r'.2 hr.1

theorem pure {v : α} {v' : α'} (hv : R v v') :
    Parallel R (Pure.pure v : BodyWriter α) (Pure.pure v' : BodyWriter α') :=
  fun _ _ hd => .pure ⟨hd, hv⟩

/-- Steps that leave the draft alone. -/
theorem lift {t : Construct α} {t' : Construct α'} (ht : Construct.Alike R t t') :
    Parallel R (liftM t : BodyWriter α) (liftM t' : BodyWriter α') :=
  fun _ _ hd => .bind ht fun _ _ hv => .pure ⟨hd, hv⟩

theorem fail {fault : Fault} (hfault : fault.Found := by trivial) :
    Parallel R (BodyWriter.fail fault : BodyWriter α) (BodyWriter.fail fault : BodyWriter α') :=
  .lift (.fail hfault)

theorem fail_bind {fault : Fault} (hfault : fault.Found := by trivial) :
    Parallel S ((BodyWriter.fail fault : BodyWriter α) >>= f)
      ((BodyWriter.fail fault : BodyWriter α') >>= f') :=
  .bind (R := fun _ _ => False) (.fail hfault) fun _ _ hno => hno.elim

/-- Steps that depend on the draft. -/
theorem get_bind {f : Draft → BodyWriter α} {f' : Draft → BodyWriter α'}
    (hf : ∀ d d', SameSlots d d' → Parallel R (f d) (f' d')) :
    Parallel R (get >>= f) (get >>= f') := by
  intro d d' hd
  rw [StateT.run_bind, StateT.run_get, pure_bind, StateT.run_bind, StateT.run_get, pure_bind]
  exact hf d d' hd d d' hd

theorem modify {f f' : Draft → Draft} (hf : ∀ d d', SameSlots d d' → SameSlots (f d) (f' d')) :
    Parallel (fun _ _ => True) (modify f : BodyWriter PUnit) (modify f' : BodyWriter PUnit) :=
  fun d d' hd => .pure ⟨hf d d' hd, trivial⟩

theorem write (op : Op) (operands operands' : List Word) :
    Parallel (fun _ _ => True) (BodyWriter.write op operands) (BodyWriter.write op operands') :=
  .modify fun _ _ hd => hd

theorem freshId : Parallel (fun _ _ => True) BodyWriter.freshId BodyWriter.freshId :=
  .lift (alike_act .freshId .freshId)

/-- Steps for the members of two lists. -/
theorem mapM {xs : List α} {xs' : List α'} {k : α → BodyWriter β} {k' : α' → BodyWriter β'}
    (hxs : List.Forall₂ R xs xs') (hk : ∀ v v', R v v' → Parallel S (k v) (k' v')) :
    Parallel (List.Forall₂ S) (xs.mapM k) (xs'.mapM k') := by
  induction hxs with
  | nil => exact .pure .nil
  | cons hx _ ih =>
    rw [List.mapM_cons, List.mapM_cons]
    refine .bind (hk _ _ hx) fun v v' hv => ?_
    exact .bind ih fun vs vs' hvs => .pure (.cons hv hvs)

theorem forM {xs : List α} {xs' : List α'} {k : α → BodyWriter PUnit} {k' : α' → BodyWriter PUnit}
    (hxs : List.Forall₂ R xs xs')
    (hk : ∀ v v', R v v' → Parallel (fun _ _ => True) (k v) (k' v')) :
    Parallel (fun _ _ => True) (xs.forM k) (xs'.forM k') := by
  induction hxs with
  | nil => exact .pure trivial
  | cons hx _ ih => exact .bind (hk _ _ hx) fun _ _ _ => ih

/-- Steps for the members of one list. -/
theorem mapM_same {γ : Type} {xs : List γ} {k : γ → BodyWriter β} {k' : γ → BodyWriter β'}
    (hk : ∀ x, Parallel S (k x) (k' x)) : Parallel (List.Forall₂ S) (xs.mapM k) (xs.mapM k') :=
  .mapM (List.forall₂_same.mpr fun _ _ => rfl) fun _ _ heq => heq ▸ hk _

theorem forM_same {γ : Type} {xs : List γ} {k k' : γ → BodyWriter PUnit}
    (hk : ∀ x, Parallel (fun _ _ => True) (k x) (k' x)) :
    Parallel (fun _ _ => True) (xs.forM k) (xs.forM k') :=
  .forM (List.forall₂_same.mpr fun _ _ => rfl) fun _ _ heq => heq ▸ hk _

end Parallel

/-! ## Operations -/

section Operations

variable (a : Assembly) (m : MethodDef) (number : Il.Slot)

/-- The slot with a number has one type in both drafts. -/
theorem parallel_slot : Parallel (fun s s' => s.type = s'.type) (BodyWriter.slot m number)
    (BodyWriter.slot m number) := by
  refine .get_bind fun d d' hd => .lift ?_
  have htypes : (d.slots[number.toNat]?).map LocalSlot.type =
      (d'.slots[number.toNat]?).map LocalSlot.type := by
    rw [← List.getElem?_map, ← List.getElem?_map, hd]
  refine .ofOption trivial ?_ fun s s' hs hs' => ?_
  · rw [← Option.isSome_map, htypes, Option.isSome_map]
  · rw [hs, hs'] at htypes
    exact Option.some.inj htypes

theorem parallel_loadSlot :
    Parallel (fun _ _ => True) (BodyWriter.loadSlot m number) (BodyWriter.loadSlot m number) :=
  .bind (parallel_slot m number) fun _ _ _ => .bind .freshId fun _ _ _ =>
    .bind (.write _ _ _) fun _ _ _ => .pure trivial

theorem parallel_storeSlot (value value' : Id) : Parallel (fun _ _ => True)
    (BodyWriter.storeSlot m number value) (BodyWriter.storeSlot m number value') :=
  .bind (parallel_slot m number) fun _ _ _ => .write _ _ _

theorem parallel_argumentType (declared : TypeId) :
    Parallel (· = ·) (BodyWriter.argumentType a m declared number)
      (BodyWriter.argumentType a m declared number) := by
  refine .bind (.lift (alike_lookup _)) fun t t' heq => ?_
  subst heq
  split
  · exact .bind (parallel_slot m number) fun s s' hs => .pure hs
  · exact .pure rfl

theorem parallel_call (result : Option Il.Slot) (wire : UInt64) (slots : List Il.Slot) :
    Parallel (fun _ _ => True) (BodyWriter.call a m result wire slots)
      (BodyWriter.call a m result wire slots) := by
  have hcallee : Construct.Alike (· = ·) (BodyWriter.callee a wire) (BodyWriter.callee a wire) := by
    unfold BodyWriter.callee
    split
    · exact .fail trivial
    · exact alike_lookup _
  refine .bind (.lift hcallee) fun target target' heq => ?_
  subst heq
  dsimp only
  split
  · exact .fail_bind
  refine .bind (.mapM_same fun pair => parallel_argumentType a m pair.2 pair.1)
    fun parameters parameters' hsame => ?_
  -- Types of arguments depend on the method alone, so both sides ask for one and the same callee.
  rw [List.forall₂_eq_eq_eq] at hsame
  subst hsame
  refine .bind (.lift (alike_ask (.same (.function ⟨target.id, parameters⟩)))) fun f f' _ => ?_
  refine .bind (.mapM_same (parallel_loadSlot m)) fun values values' _ => ?_
  refine .bind .freshId fun value value' _ => .bind (.write _ _ _) fun _ _ _ => ?_
  refine .bind (.modify fun _ _ hd => hd) fun _ _ _ => ?_
  cases result with
  | none => exact .pure trivial
  | some number => exact parallel_storeSlot m number value value'

theorem parallel_global (wire : UInt64) : Parallel (fun _ _ => True)
    (liftM (BodyWriter.global a wire) : BodyWriter GlobalVariable)
    (liftM (BodyWriter.global a wire) : BodyWriter GlobalVariable) := by
  refine .lift ?_
  unfold BodyWriter.global
  split
  · exact .fail trivial
  · next field _ =>
    refine .bind (alike_lookup _) fun f f' heq => ?_
    subst heq
    split
    · exact alike_ask (.same (.variable field))
    · exact .fail trivial

theorem parallel_loadConstant (bits : Word) : Parallel (fun _ _ => True)
    (BodyWriter.loadConstant m number bits) (BodyWriter.loadConstant m number bits) :=
  .bind (parallel_slot m number) fun _ _ _ => .bind (.lift (alike_constant _ _ _ _)) fun i i' _ =>
    parallel_storeSlot m number i i'

theorem parallel_operation (op : Il.Operation) : Parallel (fun _ _ => True)
    (BodyWriter.operation a m op) (BodyWriter.operation a m op) := by
  cases op with
  | call result wire slots => exact parallel_call a m result wire slots
  | ret => exact .write _ _ _
  | returnValue value =>
    cases value with
    | none => exact .fail
    | some slot => exact .bind (parallel_loadSlot m slot) fun _ _ _ => .write _ _ _
  | load destination source =>
    exact .bind (parallel_loadSlot m source) fun i i' _ => parallel_storeSlot m destination i i'
  | loadField destination wire =>
    refine .bind (parallel_global a wire) fun _ _ _ => .bind .freshId fun i i' _ => ?_
    exact .bind (.write _ _ _) fun _ _ _ => parallel_storeSlot m destination i i'
  | storeField wire source =>
    refine .bind (parallel_global a wire) fun _ _ _ => ?_
    exact .bind (parallel_loadSlot m source) fun _ _ _ => .write _ _ _
  | loadUInt32 destination bits => exact parallel_loadConstant m destination bits
  | loadFloat32 destination bits => exact parallel_loadConstant m destination bits

theorem parallel_instruction (i : Il.Instruction) : Parallel (fun _ _ => True)
    (BodyWriter.instruction a m i) (BodyWriter.instruction a m i) := by
  unfold BodyWriter.instruction
  split
  · exact .fail
  · exact parallel_operation a m _

end Operations

/-! ## Functions -/

section Functions

variable (a : Assembly) (m : MethodDef)

theorem parallel_declareSlot (type : TypeId) : Parallel (fun _ _ => True)
    (BodyWriter.declareSlot a type) (BodyWriter.declareSlot a type) := by
  refine .bind (.lift (alike_type a type)) fun i i' _ => .bind (.lift (alike_shape _ _)) fun j j' _ => ?_
  refine .bind .freshId fun v v' _ => .bind (.write _ _ _) fun _ _ _ => .modify fun d d' hd => ?_
  simpa [SameSlots] using hd

theorem parallel_declareSlots (s : Specialization) : Parallel (fun _ _ => True)
    (BodyWriter.declareSlots a m s) (BodyWriter.declareSlots a m s) := by
  rw [BodyWriter.declareSlots_eq]
  exact .forM_same fun declared => parallel_declareSlot a (s.apply declared)

theorem parallel_signature (id id' returnType returnType' functionType functionType' : Id)
    {parameterTypes parameterTypes' : List Id}
    (hparameters : List.Forall₂ (fun _ _ => True) parameterTypes parameterTypes') :
    Parallel (List.Forall₂ fun _ _ => True)
      (BodyWriter.signature id returnType functionType parameterTypes)
      (BodyWriter.signature id' returnType' functionType' parameterTypes') :=
  .bind (.write _ _ _) fun _ _ _ => .mapM hparameters fun _ _ _ =>
    .bind .freshId fun _ _ _ => .bind (.write _ _ _) fun _ _ _ => .pure trivial

theorem parallel_body (s : Specialization) (id id' returnType returnType' functionType functionType' : Id)
    {parameterTypes parameterTypes' : List Id}
    (hparameters : List.Forall₂ (fun _ _ => True) parameterTypes parameterTypes') :
    Parallel (fun _ _ => True)
      (BodyWriter.body a m s id returnType functionType parameterTypes)
      (BodyWriter.body a m s id' returnType' functionType' parameterTypes') := by
  refine .bind (parallel_signature _ _ _ _ _ _ hparameters) fun values values' hvalues => ?_
  refine .bind .freshId fun label label' _ => .bind (.write _ _ _) fun _ _ _ => ?_
  refine .bind (parallel_declareSlots a m s) fun _ _ _ => ?_
  refine .get_bind fun d d' hd => ?_
  have hslots : d.slots.length = d'.slots.length := by
    simpa using congrArg List.length hd
  have hpairs : List.Forall₂ (fun _ _ => True) (d.slots.zip values) (d'.slots.zip values') := by
    refine List.forall₂_iff_get.mpr ⟨?_, fun _ _ _ => trivial⟩
    rw [List.length_zip, List.length_zip, hslots, hvalues.length_eq]
  refine .bind (.forM hpairs fun _ _ _ => .write _ _ _) fun _ _ _ => ?_
  exact .bind (.forM_same (parallel_instruction a m)) fun _ _ _ => .write _ _ _

/-- A key does not fit a method for a cause that constructions can find. -/
theorem found_of_bindAll {s : Specialization} {pairs : List (TypeId × TypeId)} {fault : Fault}
    (h : Specialization.bindAll a m s pairs = .error fault) : fault.Found := by
  induction pairs generalizing s with
  | nil => cases h
  | cons pair pairs ih =>
    rw [Specialization.bindAll] at h
    split at h
    · exact ih h
    · next first hone =>
      obtain rfl := Except.error.inj h
      unfold Specialization.bindOne at hone
      split at hone
      · obtain rfl := Except.error.inj hone
        trivial
      · split at hone
        · split at hone
          · cases hone
          · split at hone
            · cases hone
            · obtain rfl := Except.error.inj hone
              trivial
        · cases hone

/-- The function of a key is made alike. -/
theorem alike_buildFunction (key : FunctionKey) : Construct.Alike (fun _ _ => True)
    (Construct.buildFunction a key) (Construct.buildFunction a key) := by
  refine .bind (alike_lookup _) fun m m' heq => ?_
  subst heq
  split
  · next fault hbind => exact .fail (found_of_bindAll a m hbind)
  · next s _ =>
    refine .bind (alike_returnType a _) fun i i' _ => .bind (alike_types a _) fun ids ids' hids => ?_
    refine .bind (alike_shape _ _) fun t t' _ => .bind (alike_act .freshId .freshId) fun id id' _ => ?_
    exact .bind (parallel_body a m s id id' i i' t t' hids _ _ rfl) fun _ _ _ => .pure trivial

end Functions

/-- What an entity is, is made alike in every state. -/
theorem alike_factory (a : Assembly) (k : Key) :
    Construct.Alike (fun _ _ => True) ((recipes a).factory k) ((recipes a).factory k) := by
  cases k with
  | type id =>
    refine .bind (alike_lookup _) fun t t' heq => ?_
    subst heq
    exact alike_buildType a t
  | «variable» id =>
    refine .bind (alike_lookup _) fun f f' heq => ?_
    subst heq
    exact alike_buildGlobal a id f
  | function key => exact alike_buildFunction a key
  | shape s => exact alike_act (.declare _) (.declare _)
  | constant type bits => exact alike_act (.declare _) (.declare _)

end ShaderLowering
