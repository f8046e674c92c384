import ShaderLowering.Proofs.Offsets.Runs

/-!
# Constructions put ids where the layout looks for them

The constructions of entities that stand for each other take the same turns in both runs
(`Offset.factories_move`).  What there is to show is that each instruction that they write has the ids that it
was given where the layout takes operands for ids, and nowhere else: one lemma for each declaration
(`Offset.Declarations.instruction`) and one rule for each instruction of a function.

A function is written into a draft.  `Offset.Steps` is what is shown of two steps that write a function into
drafts with words, slots and callees that stand for each other.
-/

namespace ShaderLowering

open Construction (Task)
open Spirv

namespace Offset

variable {o : Offset} {a : Assembly} {α α' β β' : Type}

/-! ## Types and global variables -/

section Requests

theorem tasks_shape {s s' : Shape} (h : o.Shapes s s') :
    o.Tasks o.Moves (Construct.shape s) (Construct.shape s') :=
  .ask (.shape h)

theorem tasks_type (a : Assembly) (id : TypeId) :
    o.Tasks o.Moves (Construct.type a id) (Construct.type a id) :=
  .bind (.lookup _ _) fun _ _ _ => .ask (.type id)

theorem tasks_types (a : Assembly) (ids : List TypeId) :
    o.Tasks (List.Forall₂ o.Moves) (ids.mapM (Construct.type a)) (ids.mapM (Construct.type a)) :=
  .mapM (tasks_type a)

theorem tasks_returnType (a : Assembly) (id : Option TypeId) :
    o.Tasks o.Moves (Construct.returnType a id) (Construct.returnType a id) := by
  cases id with
  | none => exact tasks_shape .void
  | some id => exact tasks_type a id

theorem tasks_representation? (a : Assembly) (t : TypeDef) (name : String) :
    o.Tasks (Option.Rel o.Moves) (Construct.representation? a t name)
      (Construct.representation? a t name) := by
  have hmade : ∀ {s s' : Shape}, o.Shapes s s' → o.Tasks (Option.Rel o.Moves)
      (some <$> Construct.shape s) (some <$> Construct.shape s') := fun hs =>
    .map (.mono (tasks_shape hs) fun _ _ hi => .some hi)
  unfold Construct.representation?
  split
  · exact .pure .none
  · exact .fail _ _
  · exact hmade .void
  · exact hmade (.int _ _)
  · exact hmade (.float _)
  · refine .bind (.lookup _ _) fun e e' heq => ?_
    subst heq
    refine .bind (tasks_type a e.id) fun i i' hi => ?_
    refine .bind (.lookup _ _) fun n n' heq => ?_
    subst heq
    exact hmade (.vector hi n)

theorem tasks_buildType (a : Assembly) (t : TypeDef) :
    o.Tasks o.Moves (Construct.buildType a t) (Construct.buildType a t) := by
  unfold Construct.buildType
  split
  · exact .fail _ _
  · split
    · exact .bind (.mapM fun f => tasks_type a f.type) fun _ _ his => .perform (.declare (.struct his))
    · exact .fail _ _
    · exact .bind (tasks_representation? a t _) fun _ _ hi => .ofOption _ _ hi

theorem tasks_buildGlobal (a : Assembly) (id : FieldId) (field : FieldDef) :
    o.Tasks o.Globals (Construct.buildGlobal a id field) (Construct.buildGlobal a id field) := by
  refine .bind (tasks_type a field.type) fun i i' hi => ?_
  refine .bind (tasks_shape (.pointer _ hi)) fun j j' hj => ?_
  refine .bind (.perform (.declare (.variable hj _))) fun v v' hv => ?_
  have hmade : o.Globals ⟨v, id, field.storage.storageClass, i⟩
      ⟨v', id, field.storage.storageClass, i'⟩ := ⟨hv, rfl, rfl, hi⟩
  have hexpose : o.Tasks o.Globals
      (do Construct.expose ⟨v, id, field.storage.storageClass, i⟩
          pure (⟨v, id, field.storage.storageClass, i⟩ : GlobalVariable))
      (do Construct.expose ⟨v', id, field.storage.storageClass, i'⟩
          pure (⟨v', id, field.storage.storageClass, i'⟩ : GlobalVariable)) :=
    .bind (.perform (.expose hmade)) fun _ _ _ => .pure hmade
  dsimp only
  split
  · next location _ => exact .bind (.perform (.decorate hv location)) fun _ _ _ => hexpose
  · exact hexpose

end Requests

/-! ## Drafts -/

/-- Slots of the same type whose ids stand for each other. -/
structure LocalSlots (o : Offset) (s s' : LocalSlot) : Prop where
  pointer : o.Moves s.pointer s'.pointer
  type : s'.type = s.type
  valueType : o.Moves s.valueType s'.valueType

/-- Drafts of functions that stand for each other. -/
structure Drafts (o : Offset) (d d' : Draft) : Prop where
  body : o.Texts d.callees d.body d'.body
  slots : List.Forall₂ o.LocalSlots d.slots d'.slots
  callees : List.Forall₂ o.Functions d.callees d'.callees

/-- Two steps that write a function take the same turns from drafts that stand for each other to such
drafts. -/
def Steps (o : Offset) (R : α → α' → Prop) (x : BodyWriter α) (x' : BodyWriter α') : Prop :=
  ∀ d d', o.Drafts d d' →
    o.Tasks (fun r r' => o.Drafts r.2 r'.2 ∧ R r.1 r'.1) (x.run d) (x'.run d')

/-- More functions may be called. -/
theorem Texts.mono {callees callees' : List Function} {words words' : List Word}
    (h : o.Texts callees words words') (hsubset : callees ⊆ callees') : o.Texts callees' words words' := by
  obtain ⟨is, is', his, hsized, hwords⟩ := h
  exact ⟨is, is', his, fun i hi => (hsized i hi).imp id fun ⟨g, hg, hlength⟩ =>
    ⟨g, hsubset hg, hlength⟩, hwords⟩

/-- One more instruction is written. -/
theorem Texts.append {callees : List Function} {words words' : List Word}
    (h : o.Texts callees words words') {op : Op} {operands operands' : List Word}
    (hi : o.Instructions ⟨op.code, operands⟩ ⟨op.code, operands'⟩)
    (hsized : Sized callees ⟨op.code, operands⟩) :
    o.Texts callees (words ++ emit op operands) (words' ++ emit op operands') := by
  obtain ⟨is, is', his, hall, rfl, rfl⟩ := h
  refine ⟨is ++ [⟨op.code, operands⟩], is' ++ [⟨op.code, operands'⟩],
    List.rel_append his (.cons hi .nil), ?_, ?_, ?_⟩
  · exact List.forall_mem_append.mpr ⟨hall, fun i hi => List.mem_singleton.mp hi ▸ hsized⟩
  · simp [emit]
  · simp [emit]

namespace Steps

variable {R R' : α → α' → Prop} {S : β → β' → Prop} {x : BodyWriter α} {x' : BodyWriter α'}
  {f : α → BodyWriter β} {f' : α' → BodyWriter β'}

theorem bind (hx : o.Steps R x x') (hf : ∀ v v', R v v' → o.Steps S (f v) (f' v')) :
    o.Steps S (x >>= f) (x' >>= f') := by
  intro d d' hd
  rw [StateT.run_bind, StateT.run_bind]
  exact .bind (hx d d' hd) fun r r' hr => hf r.1 r'.1 hr.2 r.2 r'.2 hr.1

theorem pure {v : α} {v' : α'} (hv : R v v') :
    o.Steps R (Pure.pure v : BodyWriter α) (Pure.pure v' : BodyWriter α') :=
  fun _ _ hd => .pure ⟨hd, hv⟩

/-- Steps that leave the draft alone. -/
theorem lift {t : Construct α} {t' : Construct α'} (ht : o.Tasks R t t') :
    o.Steps R (liftM t : BodyWriter α) (liftM t' : BodyWriter α') :=
  fun _ _ hd => .bind ht fun _ _ hv => .pure ⟨hd, hv⟩

theorem fail (fault fault' : Fault) :
    o.Steps R (BodyWriter.fail fault : BodyWriter α) (BodyWriter.fail fault' : BodyWriter α') :=
  .lift (.fail _ _)

theorem fail_bind (fault fault' : Fault) :
    o.Steps S ((BodyWriter.fail fault : BodyWriter α) >>= f)
      ((BodyWriter.fail fault' : BodyWriter α') >>= f') :=
  .bind (R := fun _ _ => False) (.fail fault fault') fun _ _ hno => hno.elim

/-- Steps that depend on the draft. -/
theorem get_bind {f : Draft → BodyWriter α} {f' : Draft → BodyWriter α'}
    (hf : ∀ d d', o.Drafts d d' → o.Steps R (f d) (f' d')) :
    o.Steps R (get >>= f) (get >>= f') := by
  intro d d' hd
  rw [StateT.run_bind, StateT.run_get, pure_bind, StateT.run_bind, StateT.run_get, pure_bind]
  exact hf d d' hd d d' hd

theorem update {f f' : Draft → Draft} (hf : ∀ d d', o.Drafts d d' → o.Drafts (f d) (f' d')) :
    o.Steps (fun _ _ => True) (modify f : BodyWriter PUnit) (modify f' : BodyWriter PUnit) :=
  fun d d' hd => .pure ⟨hf d d' hd, trivial⟩

/-- An instruction is written with some ids where the layout takes operands for ids, and with the same
operands elsewhere. -/
theorem write {op : Op} {operands operands' : List Word} {is is' : List Id}
    (h : List.Forall₂ o.Moves is is')
    (hids : (⟨op.code, operands⟩ : Instruction).ids = is.map Id.raw)
    (heq : (⟨op.code, operands'⟩ : Instruction) = (⟨op.code, operands⟩ : Instruction).mapIds o.word)
    (hshort : operands.length ≤ 4 := by exact Nat.le_of_ble_eq_true rfl) :
    o.Steps (fun _ _ => True) (BodyWriter.write op operands) (BodyWriter.write op operands') :=
  .update fun _ _ hd => ⟨hd.body.append (instructions_of_ids h hids heq) (.inl hshort), hd.slots, hd.callees⟩

/-- A call is written, and its callee noted. -/
theorem call_bind {operands operands' : List Word} {g g' : Function}
    (h : o.Instructions ⟨Op.functionCall.code, operands⟩ ⟨Op.functionCall.code, operands'⟩)
    (hlength : operands.length = g.key.parameters.length + 3) (hg : o.Functions g g')
    (hx : o.Steps R x x') :
    o.Steps R
      (do BodyWriter.write .functionCall operands
          modify fun draft => { draft with callees := draft.callees ++ [g] }
          x)
      (do BodyWriter.write .functionCall operands'
          modify fun draft => { draft with callees := draft.callees ++ [g'] }
          x') := by
  refine fun d d' hd => hx _ _ ⟨?_, hd.slots, List.rel_append hd.callees (.cons hg .nil)⟩
  exact (hd.body.mono (List.subset_append_left _ _)).append h (.inr ⟨g, by simp, hlength⟩)

theorem freshId : o.Steps o.Moves BodyWriter.freshId BodyWriter.freshId :=
  .lift (.perform .freshId)

/-- Steps for the members of two lists have one result for each member. -/
theorem mapM {xs : List α} {xs' : List α'} {k : α → BodyWriter β} {k' : α' → BodyWriter β'}
    (hxs : List.Forall₂ R xs xs') (hk : ∀ v v', R v v' → o.Steps S (k v) (k' v')) :
    o.Steps (fun vs vs' => vs.length = xs.length ∧ List.Forall₂ S vs vs') (xs.mapM k) (xs'.mapM k') := by
  induction hxs with
  | nil => exact .pure ⟨rfl, .nil⟩
  | cons hx _ ih =>
    rw [List.mapM_cons, List.mapM_cons]
    refine .bind (hk _ _ hx) fun v v' hv => ?_
    exact .bind ih fun vs vs' hvs => .pure ⟨congrArg (· + 1) hvs.1, .cons hv hvs.2⟩

theorem forM {xs : List α} {xs' : List α'} {k : α → BodyWriter PUnit} {k' : α' → BodyWriter PUnit}
    (hxs : List.Forall₂ R xs xs')
    (hk : ∀ v v', R v v' → o.Steps (fun _ _ => True) (k v) (k' v')) :
    o.Steps (fun _ _ => True) (xs.forM k) (xs'.forM k') := by
  induction hxs with
  | nil => exact .pure trivial
  | cons hx _ ih => exact .bind (hk _ _ hx) fun _ _ _ => ih

/-- Steps for the members of one list. -/
theorem mapM_same {γ : Type} {xs : List γ} {k : γ → BodyWriter β} {k' : γ → BodyWriter β'}
    (hk : ∀ x, o.Steps S (k x) (k' x)) : o.Steps
      (fun vs vs' => vs.length = xs.length ∧ List.Forall₂ S vs vs') (xs.mapM k) (xs.mapM k') :=
  .mapM (List.forall₂_same.mpr fun _ _ => rfl) fun _ _ heq => heq ▸ hk _

theorem forM_same {γ : Type} {xs : List γ} {k k' : γ → BodyWriter PUnit}
    (hk : ∀ x, o.Steps (fun _ _ => True) (k x) (k' x)) :
    o.Steps (fun _ _ => True) (xs.forM k) (xs.forM k') :=
  .forM (List.forall₂_same.mpr fun _ _ => rfl) fun _ _ heq => heq ▸ hk _

end Steps

/-! ## Operations -/

theorem rel_getElem? {R : α → β → Prop} {xs : List α} {ys : List β} (h : List.Forall₂ R xs ys)
    (n : Nat) : Option.Rel R xs[n]? ys[n]? := by
  induction h generalizing n with
  | nil => exact .none
  | cons hxy _ ih =>
    cases n with
    | zero => exact .some hxy
    | succ n => exact ih n

theorem rel_zip {R : α → α' → Prop} {S : β → β' → Prop} {xs : List α} {xs' : List α'} {ys : List β}
    {ys' : List β'} (h : List.Forall₂ R xs xs') (h' : List.Forall₂ S ys ys') :
    List.Forall₂ (fun p p' => R p.1 p'.1 ∧ S p.2 p'.2) (xs.zip ys) (xs'.zip ys') := by
  induction h generalizing ys ys' with
  | nil => exact .nil
  | cons hx _ ih =>
    cases h' with
    | nil => exact .nil
    | cons hy hys => exact .cons ⟨hx, hy⟩ (ih hys)

section Operations

variable (a : Assembly) (m : MethodDef) (number : Il.Slot)

theorem steps_slot : o.Steps o.LocalSlots (BodyWriter.slot m number) (BodyWriter.slot m number) := by
  refine .get_bind fun d d' hd => .lift (.ofOption _ _ ?_)
  exact rel_getElem? hd.slots number.toNat

theorem steps_loadSlot :
    o.Steps o.Moves (BodyWriter.loadSlot m number) (BodyWriter.loadSlot m number) := by
  refine .bind (steps_slot m number) fun s s' hs => .bind .freshId fun v v' hv => ?_
  refine .bind (.write (.cons hs.valueType (.cons hv (.cons hs.pointer .nil))) rfl ?_) fun _ _ _ =>
    .pure hv
  rw [hs.valueType.eq, hv.eq, hs.pointer.eq]
  rfl

theorem steps_storeSlot {v v' : Id} (hv : o.Moves v v') : o.Steps (fun _ _ => True)
    (BodyWriter.storeSlot m number v) (BodyWriter.storeSlot m number v') := by
  refine .bind (steps_slot m number) fun s s' hs => .write (.cons hs.pointer (.cons hv .nil)) rfl ?_
  rw [hs.pointer.eq, hv.eq]
  rfl

theorem steps_argumentType (declared : TypeId) :
    o.Steps (· = ·) (BodyWriter.argumentType a m declared number)
      (BodyWriter.argumentType a m declared number) := by
  refine .bind (.lift (.lookup _ _)) fun t t' heq => ?_
  subst heq
  split
  · exact .bind (steps_slot m number) fun s s' hs => .pure hs.type.symm
  · exact .pure rfl

theorem steps_call (result : Option Il.Slot) (wire : UInt64) (slots : List Il.Slot) :
    o.Steps (fun _ _ => True) (BodyWriter.call a m result wire slots)
      (BodyWriter.call a m result wire slots) := by
  have hcallee : o.Tasks (· = ·) (BodyWriter.callee a wire) (BodyWriter.callee a wire) := by
    unfold BodyWriter.callee
    split
    · exact .fail _ _
    · exact .lookup _ _
  refine .bind (.lift hcallee) fun target target' heq => ?_
  subst heq
  dsimp only
  -- The number of arguments is the same on both sides, as it is told by the assembly.
  split
  · exact .fail_bind _ _
  next hcount =>
  rw [not_not] at hcount
  refine .bind (.mapM_same fun pair => steps_argumentType a m pair.2 pair.1)
    fun parameters parameters' ⟨hlength, hsame⟩ => ?_
  rw [List.forall₂_eq_eq_eq] at hsame
  subst hsame
  refine .bind (.lift (.ask (.function ⟨target.id, parameters⟩))) fun f f' ⟨hkey, hf⟩ => ?_
  obtain ⟨hid, -, hreturn, -, -⟩ := id hf
  refine .bind (.mapM_same (steps_loadSlot m)) fun values values' ⟨hvalueCount, hvalues⟩ => ?_
  refine .bind .freshId fun v v' hv => .call_bind ?_ ?_ hf ?_
  · refine instructions_of_all .functionCall (fun i hi => ?_)
      (.cons hreturn (.cons hv (.cons hid hvalues)))
    simp only [Instruction.nominalIdPositions, hi]
  · rw [hkey]
    simp only [List.length_cons, List.length_map, hvalueCount, hlength, List.length_zip, hcount]
    omega
  · cases result with
    | none => exact .pure trivial
    | some number => exact steps_storeSlot m number hv

theorem tasks_global (wire : UInt64) :
    o.Tasks o.Globals (BodyWriter.global a wire) (BodyWriter.global a wire) := by
  unfold BodyWriter.global
  split
  · exact .fail _ _
  · next field _ =>
    refine .bind (.lookup _ _) fun f f' heq => ?_
    subst heq
    split
    · exact .ask (.variable field)
    · exact .fail _ _

theorem steps_loadConstant (bits : Word) : o.Steps (fun _ _ => True)
    (BodyWriter.loadConstant m number bits) (BodyWriter.loadConstant m number bits) :=
  .bind (steps_slot m number) fun _ _ hs =>
    .bind (.lift (.ask (.constant hs.valueType bits))) fun _ _ hi => steps_storeSlot m number hi

theorem steps_operation (op : Il.Operation) : o.Steps (fun _ _ => True)
    (BodyWriter.operation a m op) (BodyWriter.operation a m op) := by
  cases op with
  | call result wire slots => exact steps_call a m result wire slots
  | ret => exact .write .nil rfl rfl
  | returnValue value =>
    cases value with
    | none => exact .fail _ _
    | some slot =>
      refine .bind (steps_loadSlot m slot) fun v v' hv => .write (.cons hv .nil) rfl ?_
      rw [hv.eq]
      rfl
  | load destination source =>
    exact .bind (steps_loadSlot m source) fun _ _ hv => steps_storeSlot m destination hv
  | loadField destination wire =>
    refine .bind (.lift (tasks_global a wire)) fun g g' hg => .bind .freshId fun v v' hv => ?_
    refine .bind (.write (.cons hg.valueType (.cons hv (.cons hg.id .nil))) rfl ?_) fun _ _ _ =>
      steps_storeSlot m destination hv
    rw [hg.valueType.eq, hv.eq, hg.id.eq]
    rfl
  | storeField wire source =>
    refine .bind (.lift (tasks_global a wire)) fun g g' hg => ?_
    refine .bind (steps_loadSlot m source) fun v v' hv =>
      .write (.cons hg.id (.cons hv .nil)) rfl ?_
    rw [hg.id.eq, hv.eq]
    rfl
  | loadUInt32 destination bits => exact steps_loadConstant m destination bits
  | loadFloat32 destination bits => exact steps_loadConstant m destination bits

theorem steps_instruction (i : Il.Instruction) : o.Steps (fun _ _ => True)
    (BodyWriter.instruction a m i) (BodyWriter.instruction a m i) := by
  unfold BodyWriter.instruction
  split
  · exact .fail _ _
  · exact steps_operation a m _

end Operations

/-! ## Functions -/

section Functions

variable (a : Assembly) (m : MethodDef)

theorem steps_declareSlot (type : TypeId) : o.Steps (fun _ _ => True)
    (BodyWriter.declareSlot a type) (BodyWriter.declareSlot a type) := by
  refine .bind (.lift (tasks_type a type)) fun i i' hi => ?_
  refine .bind (.lift (tasks_shape (.pointer _ hi))) fun j j' hj => .bind .freshId fun v v' hv => ?_
  refine .bind (.write (.cons hj (.cons hv .nil)) rfl ?_) fun _ _ _ =>
    .update fun d d' hd => ⟨hd.body, List.rel_append hd.slots (.cons ⟨hv, rfl, hi⟩ .nil), hd.callees⟩
  rw [hj.eq, hv.eq]
  rfl

theorem steps_declareSlots (s : Specialization) : o.Steps (fun _ _ => True)
    (BodyWriter.declareSlots a m s) (BodyWriter.declareSlots a m s) := by
  rw [BodyWriter.declareSlots_eq]
  exact .forM_same fun declared => steps_declareSlot a (s.apply declared)

theorem steps_signature {id id' returnType returnType' functionType functionType' : Id}
    {parameterTypes parameterTypes' : List Id} (hid : o.Moves id id')
    (hreturn : o.Moves returnType returnType') (hfunction : o.Moves functionType functionType')
    (hparameters : List.Forall₂ o.Moves parameterTypes parameterTypes') :
    o.Steps (fun vs vs' => vs.length = parameterTypes.length ∧ List.Forall₂ o.Moves vs vs')
      (BodyWriter.signature id returnType functionType parameterTypes)
      (BodyWriter.signature id' returnType' functionType' parameterTypes') := by
  refine .bind (.write (.cons hreturn (.cons hid (.cons hfunction .nil))) rfl ?_) fun _ _ _ =>
    .mapM hparameters fun i i' hi => .bind .freshId fun v v' hv =>
      .bind (.write (.cons hi (.cons hv .nil)) rfl ?_) fun _ _ _ => .pure hv
  · rw [hreturn.eq, hid.eq, hfunction.eq]
    rfl
  · rw [hi.eq, hv.eq]
    rfl

theorem steps_body (s : Specialization) {id id' returnType returnType' functionType functionType' : Id}
    {parameterTypes parameterTypes' : List Id} (hid : o.Moves id id')
    (hreturn : o.Moves returnType returnType') (hfunction : o.Moves functionType functionType')
    (hparameters : List.Forall₂ o.Moves parameterTypes parameterTypes') :
    o.Steps (fun _ _ => True) (BodyWriter.body a m s id returnType functionType parameterTypes)
      (BodyWriter.body a m s id' returnType' functionType' parameterTypes') := by
  refine .bind (steps_signature hid hreturn hfunction hparameters) fun values values' hvalues => ?_
  refine .bind .freshId fun label label' hlabel => .bind (.write (.cons hlabel .nil) rfl ?_) ?_
  · rw [hlabel.eq]
    rfl
  intro _ _ _
  refine .bind (steps_declareSlots a m s) fun _ _ _ => ?_
  refine .get_bind fun d d' hd => ?_
  refine .bind (.forM (rel_zip hd.slots hvalues.2) fun p p' ⟨hslot, hvalue⟩ => ?_) fun _ _ _ => ?_
  · refine .write (.cons hslot.pointer (.cons hvalue .nil)) rfl ?_
    rw [hslot.pointer.eq, hvalue.eq]
    rfl
  exact .bind (.forM_same (steps_instruction a m)) fun _ _ _ => .write .nil rfl rfl

theorem tasks_buildFunction (key : FunctionKey) :
    o.Tasks (fun f f' => f.key = key ∧ o.Functions f f') (Construct.buildFunction a key)
      (Construct.buildFunction a key) := by
  refine .bind (.lookup _ _) fun m m' heq => ?_
  subst heq
  split
  · exact .fail _ _
  · next s _ =>
    refine .bind (tasks_returnType a _) fun i i' hi => .bind (tasks_types a _) fun ids ids' hids => ?_
    refine .bind (tasks_shape (.function hi hids)) fun t t' ht => ?_
    refine .bind (.perform .freshId) fun id id' hid => ?_
    have hempty : o.Drafts .empty .empty := ⟨⟨[], [], .nil, nofun, rfl, rfl⟩, .nil, .nil⟩
    refine .bind (steps_body a m s hid hi ht hids _ _ hempty) fun r r' hr => ?_
    exact .pure ⟨rfl, hid, rfl, hi, hr.1.body, hr.1.callees⟩

end Functions

/-- What stands for each other is made in the same turns. -/
theorem factories_move (o : Offset) (a : Assembly) : o.FactoriesMove a := by
  intro k k' hk
  cases hk with
  | type id =>
    refine .bind (.lookup _ _) fun t t' heq => ?_
    subst heq
    exact tasks_buildType a t
  | «variable» id =>
    refine .bind (.lookup _ _) fun f f' heq => ?_
    subst heq
    exact tasks_buildGlobal a id f
  | function key => exact tasks_buildFunction a key
  | shape hs => exact .perform (.declare (.shape hs))
  | constant htype bits => exact .perform (.declare (.constant htype bits))

end Offset

end ShaderLowering
