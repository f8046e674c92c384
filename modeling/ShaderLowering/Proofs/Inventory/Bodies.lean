import ShaderLowering.Proofs.Inventory.Rules

/-!
# Functions in the inventory

A function is written into a draft, whose words are the instructions that have been written so far
(`Drafted`).  `Appends` is what is shown of the steps that write a function: they add instructions that are
sourced, with ids of the inventory and of the function itself in their places.  So what is
had for the key of a function is written in ids of the inventory (`stocks_function`), and with that all
factories keep to the discipline (`inventory_lawful`).
-/

namespace ShaderLowering

open Construction
open Spirv

variable {a : Assembly} {h : Inventory} {α β : Type} {is is₁ is₂ : List Instruction}

/-! ## Drafts -/

/-- A draft whose words are some instructions, with slots and callees that may be referred to. -/
structure Drafted (h : Inventory) (d : Draft) (is : List Instruction) : Prop where
  body : d.body = is.flatMap Instruction.encode
  sourced : ∀ i ∈ is, Sourced h (resultsOf is) d.callees i
  slots : ∀ s ∈ d.slots, h.Types s.valueType ∧ s.pointer.raw ∈ resultsOf is
  callees : ∀ g ∈ d.callees, Written h g

theorem resultsOf_subset (hbefore : is <+: is₁) : resultsOf is ⊆ resultsOf is₁ :=
  (hbefore.filterMap _).subset

theorem mem_resultsOf_concat {i : Instruction} {w : Word} (hi : i.defines? = some w) :
    w ∈ resultsOf (is ++ [i]) :=
  List.mem_filterMap.mpr ⟨i, List.mem_append_right _ (List.mem_singleton_self _), hi⟩

/-- One more instruction is written. -/
theorem Drafted.write {d : Draft} (hd : Drafted h d is) {op : Op} {operands : List Word}
    (hi : Sourced h (resultsOf (is ++ [⟨op.code, operands⟩])) d.callees ⟨op.code, operands⟩) :
    Drafted h { d with body := d.body ++ emit op operands } (is ++ [⟨op.code, operands⟩]) where
  body := by simp [hd.body, emit]
  sourced := by
    refine List.forall_mem_append.mpr ⟨fun i hmem => ?_, fun i hmem => List.mem_singleton.mp hmem ▸ hi⟩
    exact (hd.sourced i hmem).mono (List.Subset.refl _) (resultsOf_subset (List.prefix_append _ _))
      (List.Subset.refl _)
  slots s hs :=
    ⟨(hd.slots s hs).1, resultsOf_subset (List.prefix_append _ _) (hd.slots s hs).2⟩
  callees := hd.callees

theorem Drafted.addSlot {d : Draft} (hd : Drafted h d is) {s : LocalSlot} (htype : h.Types s.valueType)
    (hpointer : s.pointer.raw ∈ resultsOf is) : Drafted h { d with slots := d.slots ++ [s] } is where
  body := hd.body
  sourced := hd.sourced
  slots := List.forall_mem_append.mpr ⟨hd.slots, fun _ hs' => List.mem_singleton.mp hs' ▸
    ⟨htype, hpointer⟩⟩
  callees := hd.callees

theorem Drafted.addCallee {d : Draft} (hd : Drafted h d is) {g : Function} (hg : Written h g) :
    Drafted h { d with callees := d.callees ++ [g] } is where
  body := hd.body
  sourced i hi := (hd.sourced i hi).mono (List.Subset.refl _) (List.Subset.refl _)
    (List.subset_append_left _ _)
  slots := hd.slots
  callees := List.forall_mem_append.mpr ⟨hd.callees, fun _ hg' => List.mem_singleton.mp hg' ▸ hg⟩

/-! ## Steps that write -/

/-- After some instructions, a step writes more of them and ends with a value; `R` holds of all instructions
then and of the value. -/
def Appends (h : Inventory) (is : List Instruction) (x : BodyWriter α)
    (R : List Instruction → α → Prop) : Prop :=
  ∀ d : Draft, Drafted h d is → Construct.Yields h (x.run d) fun r =>
    ∃ is₁, is <+: is₁ ∧ Drafted h r.2 is₁ ∧ R is₁ r.1

namespace Appends

variable {x : BodyWriter α} {f : α → BodyWriter β} {R R' : List Instruction → α → Prop}
  {S : List Instruction → β → Prop}

theorem mono (hx : Appends h is x R) (himp : ∀ is₁ v, is <+: is₁ → R is₁ v → R' is₁ v) :
    Appends h is x R' :=
  fun d hd => (hx d hd).mono fun _ ⟨is₁, hbefore, hd₁, hr⟩ => ⟨is₁, hbefore, hd₁, himp is₁ _ hbefore hr⟩

/-- What has been written stays in front. -/
theorem extending {first : List Instruction} (hfirst : first <+: is)
    (hx : Appends h is x fun _ _ => True) : Appends h is x fun is₁ _ => first <+: is₁ :=
  hx.mono fun _ _ hbefore _ => hfirst.trans hbefore

theorem bind (hx : Appends h is x R)
    (hf : ∀ is₁ v, is <+: is₁ → R is₁ v → Appends h is₁ (f v) S) : Appends h is (x >>= f) S := by
  intro d hd
  rw [StateT.run_bind]
  refine (hx d hd).bind fun r ⟨is₁, hbefore, hd₁, hr⟩ => ?_
  refine (hf is₁ r.1 hbefore hr r.2 hd₁).mono fun r' ⟨is₂, hafter, hd₂, hr'⟩ => ?_
  exact ⟨is₂, hbefore.trans hafter, hd₂, hr'⟩

theorem pure {v : α} (hv : R is v) : Appends h is (Pure.pure v : BodyWriter α) R := by
  intro d hd
  rw [StateT.run_pure]
  exact .pure ⟨is, List.prefix_rfl, hd, hv⟩

/-- A step that leaves the draft alone. -/
theorem lift {t : Construct α} {T : α → Prop} (ht : t.Yields h T) :
    Appends h is (liftM t : BodyWriter α) fun _ v => T v :=
  fun _ hd => ht.bind fun _ hv => .pure ⟨is, List.prefix_rfl, hd, hv⟩

theorem fail (fault : Fault) : Appends h is (BodyWriter.fail fault : BodyWriter α) R :=
  fun _ _ => .bind (R := fun _ => False) (.fail fault) fun _ hno => hno.elim

theorem fail_bind (fault : Fault) : Appends h is ((BodyWriter.fail fault : BodyWriter α) >>= f) S :=
  .bind (R := fun _ _ => False) (.fail fault) fun _ _ _ hno => hno.elim

/-- A step that depends on the draft. -/
theorem get_bind {f : Draft → BodyWriter α} (hf : ∀ d, Drafted h d is → Appends h is (f d) R) :
    Appends h is (get >>= f) R := by
  intro d hd
  rw [StateT.run_bind, StateT.run_get, pure_bind]
  exact hf d hd d hd

theorem update {f : Draft → Draft} (hf : ∀ d, Drafted h d is → Drafted h (f d) is) :
    Appends h is (modify f : BodyWriter PUnit) fun _ _ => True := by
  intro d hd
  rw [StateT.run_modify]
  exact .pure ⟨is, List.prefix_rfl, hf d hd, trivial⟩

/-- An instruction is written that calls nothing. -/
theorem write {op : Op} {operands : List Word}
    (hi : ∀ callees, Sourced h (resultsOf (is ++ [⟨op.code, operands⟩])) callees ⟨op.code, operands⟩) :
    Appends h is (BodyWriter.write op operands) fun is₁ _ => is₁ = is ++ [⟨op.code, operands⟩] := by
  intro d hd
  unfold BodyWriter.write
  rw [StateT.run_modify]
  exact .pure ⟨_, List.prefix_append _ _, hd.write (hi d.callees), rfl⟩

theorem freshId : Appends h is BodyWriter.freshId fun _ id => h.Taken id :=
  .lift .freshId

/-- A step for each member of a list. -/
theorem mapM {xs : List α} {k : α → BodyWriter β} (hS : ∀ is₁ is₂ v, is₁ <+: is₂ → S is₁ v → S is₂ v)
    (hk : ∀ x ∈ xs, ∀ is₁, is <+: is₁ → Appends h is₁ (k x) S) :
    Appends h is (xs.mapM k) fun is₁ vs => vs.length = xs.length ∧ ∀ v ∈ vs, S is₁ v := by
  induction xs generalizing is with
  | nil => exact .pure ⟨rfl, nofun⟩
  | cons x xs ih =>
    rw [List.mapM_cons]
    refine .bind (hk x List.mem_cons_self is List.prefix_rfl) fun is₁ v hbefore hv => ?_
    refine .bind (ih fun x' hx' is₂ hlonger =>
      hk x' (List.mem_cons_of_mem x hx') is₂ (hbefore.trans hlonger)) ?_
    rintro is₃ vs hlonger ⟨hlength, hvs⟩
    exact .pure ⟨congrArg (· + 1) hlength, List.forall_mem_cons.mpr ⟨hS is₁ is₃ v hlonger hv, hvs⟩⟩

theorem forM {xs : List α} {k : α → BodyWriter PUnit}
    (hk : ∀ x ∈ xs, ∀ is₁, is <+: is₁ → Appends h is₁ (k x) fun _ _ => True) :
    Appends h is (xs.forM k) fun _ _ => True := by
  induction xs generalizing is with
  | nil => exact .pure trivial
  | cons x xs ih =>
    refine .bind (hk x List.mem_cons_self is List.prefix_rfl) fun is₁ _ hbefore _ => ?_
    exact ih fun x' hx' is₂ hlonger => hk x' (List.mem_cons_of_mem x hx') is₂ (hbefore.trans hlonger)

/-- A call is written, and its callee noted. -/
theorem call_bind {operands : List Word} {g : Function} (hg : Written h g)
    (hi : ∀ callees, g ∈ callees → Sourced h
      (resultsOf (is ++ [⟨Op.functionCall.code, operands⟩])) callees ⟨Op.functionCall.code, operands⟩)
    (hx : Appends h (is ++ [⟨Op.functionCall.code, operands⟩]) x R) :
    Appends h is
      (do BodyWriter.write .functionCall operands
          modify fun draft => { draft with callees := draft.callees ++ [g] }
          x) R := by
  intro d hd
  have hcalled := (hd.addCallee hg).write (hi (d.callees ++ [g]) (by simp))
  refine (hx _ hcalled).mono fun r ⟨is₁, hbefore, hd₁, hr⟩ => ?_
  exact ⟨is₁, (List.prefix_append _ _).trans hbefore, hd₁, hr⟩

end Appends

/-! ## Operations -/

section Operations

variable (m : MethodDef) (number : Il.Slot)

theorem appends_slot : Appends h is (BodyWriter.slot m number) fun is₁ s =>
    h.Types s.valueType ∧ s.pointer.raw ∈ resultsOf is₁ := by
  refine .get_bind fun d hd => ?_
  have hslot : Appends h is (BodyWriter.ofOption (.unresolvedSlot m.fullName number)
      d.slots[number.toNat]?) fun _ s => h.Types s.valueType ∧ s.pointer.raw ∈ resultsOf is :=
    .lift (.ofOption _ fun s hs => hd.slots s (List.mem_of_getElem? hs))
  exact hslot.mono fun is₁ s hbefore hs => ⟨hs.1, resultsOf_subset hbefore hs.2⟩

theorem appends_loadSlot : Appends h is (BodyWriter.loadSlot m number) fun is₁ v =>
    v.raw ∈ resultsOf is₁ := by
  refine .bind (appends_slot m number) fun is₁ s _ ⟨htype, hpointer⟩ => ?_
  refine .bind .freshId fun is₂ v hbefore hv => .bind (.write fun _ => ?_) fun is₃ _ _ heq => .pure ?_
  · exact .load htype hv (.inl (resultsOf_subset (hbefore.trans (List.prefix_append _ _)) hpointer))
  · rw [heq]
    exact mem_resultsOf_concat rfl

theorem appends_storeSlot {v : Id} (hv : Usable h (resultsOf is) v) :
    Appends h is (BodyWriter.storeSlot m number v) fun _ _ => True := by
  refine .bind (appends_slot m number) fun is₁ s hbefore ⟨_, hpointer⟩ => ?_
  have hlonger := List.prefix_append is₁ [⟨Op.store.code, [s.pointer.raw, v.raw]⟩]
  refine .mono (.write fun _ => .store (.inl (resultsOf_subset hlonger hpointer)) ?_)
    fun _ _ _ _ => trivial
  exact hv.mono (List.Subset.refl _) (resultsOf_subset (hbefore.trans hlonger))

theorem appends_global (wire : UInt64) : Appends h is (liftM (BodyWriter.global a wire)) fun _ v =>
    h.Types v.valueType ∧ h.Variables v.id := by
  unfold BodyWriter.global
  split
  · exact .fail _
  · next field _ =>
    refine .lift (.bind (.ofOption _ fun _ _ => trivial) fun f _ => ?_)
    split
    · exact .ask (k := .variable field) nofun
    · exact .fail _

theorem appends_argumentType (declared : TypeId) :
    Appends h is (BodyWriter.argumentType a m declared number) fun _ _ => True := by
  refine .bind (.lift (.ofOption (R := fun _ => True) _ fun _ _ => trivial)) fun is₁ t _ _ => ?_
  split
  · exact .bind (appends_slot m number) fun _ _ _ _ => .pure trivial
  · exact .pure trivial

theorem appends_call (result : Option Il.Slot) (wire : UInt64) (slots : List Il.Slot) :
    Appends h is (BodyWriter.call a m result wire slots) fun _ _ => True := by
  have hcallee : Construct.Yields h (BodyWriter.callee a wire) fun _ => True := by
    unfold BodyWriter.callee
    split
    · exact .fail _
    · exact .ofOption _ fun _ _ => trivial
  refine .bind (.lift hcallee) fun is₁ target _ _ => ?_
  dsimp only
  split
  · exact .fail_bind _
  next hcount =>
  -- The count test makes the zip of slots and parameters as long as either list.
  rw [not_not] at hcount
  refine .bind (.mapM (S := fun _ _ => True) (fun _ _ _ _ _ => trivial) fun pair _ is₂ _ =>
    appends_argumentType m pair.2 pair.1) fun is₃ parameters _ ⟨hlength, _⟩ => ?_
  refine .bind (.lift (.ask (k := .function ⟨target.id, parameters⟩) nofun))
    fun is₄ f _ ⟨hkey, hf⟩ => ?_
  have hmono : ∀ (is₁ is₂ : List Instruction) (v : Id), is₁ <+: is₂ → v.raw ∈ resultsOf is₁ →
      v.raw ∈ resultsOf is₂ := fun _ _ _ hbefore hv => resultsOf_subset hbefore hv
  refine .bind (.mapM hmono fun slot _ is₅ _ => appends_loadSlot m slot)
    fun is₆ values _ ⟨hvalueCount, hvalues⟩ => .bind .freshId fun is₇ v hbefore hv => ?_
  have hreturn : h.Types f.returnType := by
    cases hf
    assumption
  refine .call_bind hf (fun callees hmem => ?_) ?_
  -- A slot's value is the result of the load just written, never a bare id.
  · refine .call hmem hreturn hv ?_ fun argument hargument => .inl ?_
    · rw [hkey, hvalueCount, hlength, List.length_zip, hcount, Nat.min_self]
    · exact resultsOf_subset (hbefore.trans (List.prefix_append _ _)) (hvalues argument hargument)
  · cases result with
    | none => exact .pure trivial
    | some number => exact appends_storeSlot m number (.inl (mem_resultsOf_concat rfl))

theorem appends_loadConstant (bits : Word) :
    Appends h is (BodyWriter.loadConstant m number bits) fun _ _ => True := by
  refine .bind (appends_slot m number) fun is₁ s _ ⟨htype, _⟩ => ?_
  have hcomponents : ∀ i ∈ (Key.constant s.valueType bits).components, h.Types i :=
    fun i hi => List.mem_singleton.mp hi ▸ htype
  exact .bind (.lift (.ask hcomponents)) fun is₂ v _ hv => appends_storeSlot m number (.inr (.inl hv))

theorem appends_operation (op : Il.Operation) :
    Appends h is (BodyWriter.operation a m op) fun _ _ => True := by
  cases op with
  | call result wire slots => exact appends_call m result wire slots
  | ret => exact .mono (.write fun _ => .ret) fun _ _ _ _ => trivial
  | returnValue value =>
    cases value with
    | none => exact .fail _
    | some slot =>
      refine .bind (appends_loadSlot m slot) fun is₁ v _ hv => ?_
      refine .mono (.write fun _ => .returnValue (.inl ?_)) fun _ _ _ _ => trivial
      exact resultsOf_subset (List.prefix_append _ _) hv
  | load destination source =>
    exact .bind (appends_loadSlot m source) fun _ _ _ hv => appends_storeSlot m destination (.inl hv)
  | loadField destination wire =>
    refine .bind (appends_global wire) fun is₁ g _ ⟨htype, hg⟩ => .bind .freshId fun is₂ v _ hv => ?_
    refine .bind (.write fun _ => .load htype hv (.inr (.inr hg))) fun is₃ _ _ heq => ?_
    refine appends_storeSlot m destination (.inl ?_)
    rw [heq]
    exact mem_resultsOf_concat rfl
  | storeField wire source =>
    refine .bind (appends_global wire) fun is₁ g _ ⟨_, hg⟩ => ?_
    refine .bind (appends_loadSlot m source) fun is₂ v _ hv => ?_
    refine .mono (.write fun _ => .store (.inr (.inr hg)) (.inl ?_)) fun _ _ _ _ => trivial
    exact resultsOf_subset (List.prefix_append _ _) hv
  | loadUInt32 destination bits => exact appends_loadConstant m destination bits
  | loadFloat32 destination bits => exact appends_loadConstant m destination bits

theorem appends_instruction (i : Il.Instruction) :
    Appends h is (BodyWriter.instruction a m i) fun _ _ => True := by
  unfold BodyWriter.instruction
  split
  · exact .fail _
  · exact appends_operation m _

end Operations

/-! ## Functions -/

section Functions

variable (m : MethodDef)

theorem appends_declareSlot (type : TypeId) :
    Appends h is (BodyWriter.declareSlot a type) fun _ _ => True := by
  refine .bind (.lift (.type a type)) fun is₁ i _ hi => ?_
  refine .bind (.lift (.shape fun j hj => ?_)) fun is₂ j _ hj => .bind .freshId fun is₃ v _ hv => ?_
  · rwa [List.mem_singleton.mp hj]
  refine .bind (.write fun _ => .slot hj hv) fun is₄ _ _ heq => .update fun d hd => hd.addSlot hi ?_
  rw [heq]
  exact mem_resultsOf_concat rfl

theorem appends_declareSlots (s : Specialization) :
    Appends h is (BodyWriter.declareSlots a m s) fun _ _ => True := by
  rw [BodyWriter.declareSlots_eq]
  exact .forM fun declared _ is₁ _ => appends_declareSlot (s.apply declared)

/-- The first instruction that is written begins the function. -/
theorem appends_signature {id returnType functionType : Id} {parameterTypes : List Id}
    (hid : h.Taken id) (hreturn : h.Types returnType) (hfunction : h.Types functionType)
    (hparameters : ∀ type ∈ parameterTypes, h.Types type) :
    Appends h [] (BodyWriter.signature id returnType functionType parameterTypes) fun is₁ vs =>
      [⟨Op.function.code, [returnType.raw, id.raw, noFunctionControl, functionType.raw]⟩] <+: is₁ ∧
        ∀ v ∈ vs, v.raw ∈ resultsOf is₁ := by
  refine .bind (.write fun _ => .function hreturn hid hfunction) fun is₁ _ _ hfirst => ?_
  have hmono : ∀ (is₁ is₂ : List Instruction) (v : Id), is₁ <+: is₂ → v.raw ∈ resultsOf is₁ →
      v.raw ∈ resultsOf is₂ := fun _ _ _ hbefore hv => resultsOf_subset hbefore hv
  refine .mono (.mapM hmono fun type htype is₂ _ => .bind .freshId fun is₃ v _ hv => ?_)
    fun is₂ vs hbefore hvs => ⟨?_, hvs.2⟩
  · refine .bind (.write fun _ => .parameter (hparameters type htype) hv) fun is₄ _ _ heq => .pure ?_
    rw [heq]
    exact mem_resultsOf_concat rfl
  · rwa [hfirst] at hbefore

theorem appends_body (s : Specialization) {id returnType functionType : Id} {parameterTypes : List Id}
    (hid : h.Taken id) (hreturn : h.Types returnType) (hfunction : h.Types functionType)
    (hparameters : ∀ type ∈ parameterTypes, h.Types type) :
    Appends h [] (BodyWriter.body a m s id returnType functionType parameterTypes) fun is₁ _ =>
      [⟨Op.function.code, [returnType.raw, id.raw, noFunctionControl, functionType.raw]⟩] <+: is₁ := by
  refine .bind (appends_signature hid hreturn hfunction hparameters)
    fun is₁ values _ ⟨hfirst, hvalues⟩ => ?_
  refine .extending hfirst ?_
  refine .bind .freshId fun is₂ label hbefore₂ hlabel => ?_
  refine .bind (.write fun _ => .label hlabel) fun is₃ _ hbefore₃ _ => ?_
  refine .bind (appends_declareSlots m s) fun is₅ _ hbefore₅ _ => .get_bind fun d hd => ?_
  -- The parameters were written before the label and the slots, and what is written stays.
  have hvalues₅ : ∀ v ∈ values, v.raw ∈ resultsOf is₅ := fun v hv =>
    resultsOf_subset (hbefore₂.trans (hbefore₃.trans hbefore₅)) (hvalues v hv)
  refine .bind (.forM fun pair hpair is₆ hbefore₆ => ?_) fun is₇ _ _ _ => ?_
  · obtain ⟨hslot, hvalue⟩ := List.of_mem_zip hpair
    have hlonger := hbefore₆.trans
      (List.prefix_append is₆ [⟨Op.store.code, [pair.1.pointer.raw, pair.2.raw]⟩])
    refine .mono (.write fun _ => .store (.inl ?_) (.inl ?_)) fun _ _ _ _ => trivial
    · exact resultsOf_subset hlonger (hd.slots _ hslot).2
    · exact resultsOf_subset hlonger (hvalues₅ _ hvalue)
  · refine .bind (.forM fun i _ is₈ _ => appends_instruction m i) fun is₉ _ _ _ => ?_
    exact .mono (.write fun _ => .functionEnd) fun _ _ _ _ => trivial

/-- What is had for a function is written in ids of the inventory. -/
theorem yields_buildFunction (key : FunctionKey) :
    (Construct.buildFunction a key).Yields h (Had h (.function key)) := by
  refine .bind (.ofOption (R := fun _ => True) _ fun _ _ => trivial) fun m _ => ?_
  split
  · exact .fail _
  next s _ =>
  refine .bind (.returnType a _) fun returnType hreturn => ?_
  refine .bind (.mapM _ (.type a)) fun parameterTypes hparameters => ?_
  refine .bind (.shape (List.forall_mem_cons.mpr ⟨hreturn, hparameters⟩)) fun functionType hfunction => ?_
  refine .bind .freshId fun id hid => ?_
  have hempty : Drafted h .empty [] := ⟨rfl, nofun, nofun, nofun⟩
  refine .bind (appends_body m s hid hreturn hfunction hparameters .empty hempty) ?_
  rintro ⟨_, d⟩ ⟨is, -, hd, ⟨rest, rfl⟩⟩
  exact .pure ⟨rfl, .intro _ rest hid hreturn rfl hd.body hd.sourced hd.callees⟩

end Functions

/-! ## The laws -/

theorem stocks_function {trusted : Prop} (key : FunctionKey) :
    Stocks a trusted (.function key) h ((recipes a).factory (.function key)) :=
  have hkey : ∀ field, Key.function key ≠ .variable field := nofun
  stocks_of_yields hkey (fun _ _ => yields_buildFunction key) fun h' => delivers_buildFunction a h' key

theorem inventory_lawful (a : Assembly) (trusted : Prop) : (inventory a trusted).Lawful where
  within_of_act _ _ _ := trivial
  known_append _ _ _ hk := fun i hi => (hk i hi).mono (List.subset_append_left _ _)
  holds_append _ _ _ _ hl hv := Shown.append hl hv
  abandoned_append _ _ _ _ _ := trivial
  fails_of_cycle _ _ := trivial
  factory r h hk hnone := by
    refine Discipline.Safe.mono (fun _ _ hanswer => Discipline.Answers.concludes trivial hanswer) ?_
    cases r with
    | type id => exact stocks_type id
    | shape s => exact stocks_shape s hk
    | constant type bits => exact stocks_constant type bits (hk type (List.mem_singleton_self _))
    | «variable» field => exact stocks_variable field (Inventory.of_eq_nil hnone)
    | function key => exact stocks_function key

end ShaderLowering
