import ShaderLowering.Proofs.Grammar.Block
import ShaderLowering.Proofs.Inventory.Basic
import ShaderLowering.Proofs.Lowering.Keys
import ShaderLowering.Proofs.Threads.Delivery
import ShaderLowering.Proofs.Writings.Silent

/-!
# Functions are formed

Every function that is constructed is written as a block that implements its key and refers to what is in the
inventory, and so is every function that it calls (`Formed`).

`Composes` is the weakest precondition of a step that writes a function: from a draft, the step comes to
another draft that is longer by some instructions (`Draft.Grows`), and what is said of them does not depend
on what was written before.  Loops are taken by an invariant (`Composes.mapM`, `Composes.forM`).
-/

namespace ShaderLowering

open Construction
open Spirv

/-! ## Functions that are formed -/

/-- What a function may refer to: what is in the inventory, and its callees. -/
def Inventory.referents (h : Inventory) (callees : List Function) : Referents where
  declares i := i ∈ h.declarations
  field field w := ∃ v : GlobalVariable, (Key.variable field, .exposed v) ∈ h ∧ v.id.raw = w
  function key f := ∃ g ∈ callees, g.key = key ∧ g.returnType.raw = f.type ∧ g.id.raw = f.id

/-- A key has a type for each parameter of its method. -/
def FunctionKey.Effective (a : Assembly) (key : FunctionKey) : Prop :=
  ∀ m, a.method? key.method = some m → key.parameters.length = m.effectiveParameters.length

/-- The words of a function are those of a block that implements its key, and the same holds of its
callees. -/
inductive Formed (a : Assembly) (h : Inventory) : Function → Prop
  | intro {f : Function} {p : Specialized} (b : FunctionBlock) (hid : b.id = f.id.raw)
      (hreturn : b.returnType = f.returnType.raw)
      (hbody : f.body = b.instructions.flatMap Instruction.encode)
      (himplements : b.Implements a (h.referents f.callees) f.key p)
      (hcallees : ∀ g ∈ f.callees, Formed a h g) : Formed a h f

/-- What is known of entities: shapes and constants are declared as their keys say, there is a variable
for a field, and functions are those of their keys, and formed. -/
def FormedFor (a : Assembly) (h : Inventory) : (k : Key) → k.Value → Prop
  | .type _, _ => True
  | .shape s, id => (Declaration.shape s).instruction id ∈ h.declarations
  | .constant type bits, id => (Declaration.constant type bits).instruction id ∈ h.declarations
  | .variable field, v => (h.referents []).Global a field ⟨v.valueType.raw, v.id.raw⟩
  | .function key, f => f.key = key ∧ (a.Numbered → key.Effective a → Formed a h f)

section Growth

variable {a : Assembly} {h h' : Inventory} {callees callees' : List Function}

theorem Inventory.referents_within (hsubset : h ⊆ h') (hcallees : callees ⊆ callees') :
    (h.referents callees).Within (h'.referents callees') := by
  refine .intro (fun i hi => declarations_subset hsubset hi) ?_ ?_
  · rintro field w ⟨v, hv, rfl⟩
    exact ⟨v, hsubset hv, rfl⟩
  · rintro key f ⟨g, hg, hkey, htype, hid⟩
    exact ⟨g, hcallees hg, hkey, htype, hid⟩

theorem Formed.mono {f : Function} (hf : Formed a h f) (hsubset : h ⊆ h') : Formed a h' f := by
  induction hf with
  | intro b hid hreturn hbody himplements _ ih =>
    exact .intro b hid hreturn hbody
      (himplements.mono (Inventory.referents_within hsubset (List.Subset.refl _))) ih

theorem FormedFor.mono {k : Key} {v : k.Value} (hv : FormedFor a h k v) (hsubset : h ⊆ h') :
    FormedFor a h' k v := by
  cases k with
  | type id => trivial
  | shape s => exact Inventory.declarations_subset hsubset hv
  | constant type bits => exact Inventory.declarations_subset hsubset hv
  | «variable» field => exact (Inventory.referents_within hsubset (List.Subset.refl _)).global hv
  | function key => exact ⟨hv.1, fun hnumbered heffective => (hv.2 hnumbered heffective).mono hsubset⟩

end Growth

/-! ## Steps that write -/

/-- A draft has become longer by some instructions, and the callees that have joined it are formed. -/
structure Draft.Grows (a : Assembly) (h : Inventory) (d d' : Draft) (is : List Instruction) : Prop where
  body : d'.body = d.body ++ is.flatMap Instruction.encode
  callees : d.callees ⊆ d'.callees
  formed : a.Numbered → (∀ g ∈ d.callees, Formed a h g) → ∀ g ∈ d'.callees, Formed a h g

/-- The places of the slots of a draft. -/
def Draft.places (d : Draft) : List Typed :=
  d.slots.map fun s => ⟨s.valueType.raw, s.pointer.raw⟩

theorem Draft.Grows.refl (a : Assembly) (h : Inventory) (d : Draft) : d.Grows a h d [] :=
  ⟨by simp, List.Subset.refl _, fun _ hd => hd⟩

theorem Draft.Grows.trans {a : Assembly} {h : Inventory} {d d' d'' : Draft} {is is' : List Instruction}
    (hfirst : d.Grows a h d' is) (hsecond : d'.Grows a h d'' is') : d.Grows a h d'' (is ++ is') :=
  ⟨by rw [hsecond.body, hfirst.body, List.flatMap_append, List.append_assoc],
    List.Subset.trans hfirst.callees hsecond.callees, fun hnumbered hd =>
      hsecond.formed hnumbered (hfirst.formed hnumbered hd)⟩

/-- A step that writes a function adds instructions to a draft and ends with a value, as long as what it is
answered is known; `R` holds of the new draft, of what has been added and of the value. -/
def Composes (a : Assembly) (h : Inventory) {α : Type} (d : Draft) (x : BodyWriter α)
    (R : Draft → List Instruction → α → Prop) : Prop :=
  Task.Delivers (I := lowering) (FormedFor a h) (x.run d) fun r => ∃ is, d.Grows a h r.2 is ∧ R r.2 is r.1

variable {a : Assembly} {h : Inventory} {d : Draft} {α β γ : Type}

namespace Composes

variable {x : BodyWriter α} {f : α → BodyWriter β} {R R' : Draft → List Instruction → α → Prop}
  {S : Draft → List Instruction → β → Prop}

theorem mono (hx : Composes a h d x R) (himp : ∀ d' is v, d.Grows a h d' is → R d' is v → R' d' is v) :
    Composes a h d x R' :=
  Task.Delivers.mono hx fun _ ⟨is, hgrows, hr⟩ => ⟨is, hgrows, himp _ is _ hgrows hr⟩

theorem bind (hx : Composes a h d x R) (hf : ∀ d' is v, R d' is v →
    Composes a h d' (f v) fun d'' is' v' => S d'' (is ++ is') v') : Composes a h d (x >>= f) S := by
  unfold Composes
  rw [StateT.run_bind]
  refine Task.Delivers.bind hx fun r ⟨is, hgrows, hr⟩ => ?_
  refine Task.Delivers.mono (hf r.2 is r.1 hr) fun r' ⟨is', hgrows', hr'⟩ => ?_
  exact ⟨is ++ is', hgrows.trans hgrows', hr'⟩

theorem pure {v : α} (hv : R d [] v) : Composes a h d (Pure.pure v : BodyWriter α) R := by
  unfold Composes
  rw [StateT.run_pure]
  exact .pure ⟨[], .refl a h d, hv⟩

/-- A step that leaves the draft alone. -/
theorem lift {t : Construct α} {T : α → Prop} (ht : Task.Delivers (I := lowering) (FormedFor a h) t T) :
    Composes a h d (liftM t : BodyWriter α) fun d' is v => d' = d ∧ is = [] ∧ T v :=
  Task.Delivers.bind ht fun _ hv => .pure ⟨[], .refl a h d, rfl, rfl, hv⟩

theorem fail (fault : Fault) : Composes a h d (BodyWriter.fail fault : BodyWriter α) R :=
  Task.Delivers.bind (R := fun _ => False) (Task.Delivers.fail (I := lowering) fault)
    fun _ hno => hno.elim

theorem fail_bind (fault : Fault) : Composes a h d ((BodyWriter.fail fault : BodyWriter α) >>= f) S :=
  .bind (R := fun _ _ _ => False) (.fail fault) fun _ _ _ hno => hno.elim

/-- A step that depends on the draft. -/
theorem get_bind {f : Draft → BodyWriter α} (hf : Composes a h d (f d) R) :
    Composes a h d (get >>= f) R := by
  unfold Composes
  rw [StateT.run_bind, StateT.run_get, pure_bind]
  exact hf

theorem write (op : Op) (operands : List Word) : Composes a h d (BodyWriter.write op operands)
    fun d' is _ => d'.slots = d.slots ∧ is = [⟨op.code, operands⟩] := by
  unfold Composes BodyWriter.write
  rw [StateT.run_modify]
  exact .pure ⟨_, ⟨by simp [emit], List.Subset.refl _, fun _ hd => hd⟩, rfl, rfl⟩

theorem freshId : Composes a h d BodyWriter.freshId fun d' is _ => d' = d ∧ is = [] ∧ True :=
  .lift (.perform _)

/-- A formed function joins the callees. -/
theorem callee {g : Function} (hg : a.Numbered → Formed a h g) :
    Composes a h d (modify fun draft => { draft with callees := draft.callees ++ [g] })
      fun d' is _ => d' = { d with callees := d.callees ++ [g] } ∧ is = [] := by
  unfold Composes
  rw [StateT.run_modify]
  refine .pure ⟨[], ⟨by simp, List.subset_append_left _ _, fun hnumbered hd => ?_⟩, rfl, rfl⟩
  exact List.forall_mem_append.mpr ⟨hd, List.forall_mem_singleton.mpr (hg hnumbered)⟩

theorem addSlot (s : LocalSlot) :
    Composes a h d (modify fun draft => { draft with slots := draft.slots ++ [s] })
      fun d' is _ => d' = { d with slots := d.slots ++ [s] } ∧ is = [] := by
  unfold Composes
  rw [StateT.run_modify]
  exact .pure ⟨[], ⟨by simp, List.Subset.refl _, fun _ hd => hd⟩, rfl, rfl⟩

/-- A step for each member of a list: an invariant of the members that have had their turn, of what has been
written for them and of the values. -/
theorem mapM {k : γ → BodyWriter β} (J : Draft → List γ → List Instruction → List β → Prop)
    (xs : List γ) (hstart : J d [] [] [])
    (hstep : ∀ x ∈ xs, ∀ d' done is vs, J d' done is vs →
      Composes a h d' (k x) fun d'' is' v => J d'' (done ++ [x]) (is ++ is') (vs ++ [v])) :
    Composes a h d (xs.mapM k) fun d' is vs => J d' xs is vs := by
  -- The invariant is carried from the members that have had their turn to all of them.
  have hrest : ∀ (rest done : List γ) (d : Draft) (is : List Instruction) (vs : List β),
      (∀ x ∈ rest, x ∈ xs) → J d done is vs →
      Composes a h d (rest.mapM k) fun d' is' vs' => J d' (done ++ rest) (is ++ is') (vs ++ vs') := by
    intro rest
    induction rest with
    | nil => exact fun done d is vs _ hJ => .pure (by simpa using hJ)
    | cons x rest ih =>
      intro done d is vs hmem hJ
      rw [List.mapM_cons]
      refine .bind (hstep x (hmem x List.mem_cons_self) d done is vs hJ) fun d₁ is₁ v hJ₁ => ?_
      refine .bind (ih (done ++ [x]) d₁ (is ++ is₁) (vs ++ [v])
        (fun x' hx' => hmem x' (List.mem_cons_of_mem x hx')) hJ₁) fun d₂ is₂ vs' hJ₂ => .pure ?_
      simpa using hJ₂
  exact hrest xs [] d [] [] (fun _ hx => hx) hstart

theorem forM {k : γ → BodyWriter PUnit} (J : Draft → List γ → List Instruction → Prop)
    (xs : List γ) (hstart : J d [] [])
    (hstep : ∀ x ∈ xs, ∀ d' done is, J d' done is →
      Composes a h d' (k x) fun d'' is' _ => J d'' (done ++ [x]) (is ++ is')) :
    Composes a h d (xs.forM k) fun d' is _ => J d' xs is := by
  have hrest : ∀ (rest done : List γ) (d : Draft) (is : List Instruction), (∀ x ∈ rest, x ∈ xs) →
      J d done is → Composes a h d (rest.forM k) fun d' is' _ => J d' (done ++ rest) (is ++ is') := by
    intro rest
    induction rest with
    | nil => exact fun done d is _ hJ => .pure (by simpa using hJ)
    | cons x rest ih =>
      intro done d is hmem hJ
      refine .bind (hstep x (hmem x List.mem_cons_self) d done is hJ) fun d₁ is₁ _ hJ₁ => ?_
      refine (ih (done ++ [x]) d₁ (is ++ is₁) (fun x' hx' => hmem x' (List.mem_cons_of_mem x hx'))
        hJ₁).mono fun d₂ is₂ _ _ hJ₂ => ?_
      simpa using hJ₂
  exact hrest xs [] d [] (fun _ hx => hx) hstart

end Composes

/-! ## Operations -/

section Operations

variable (m : MethodDef) (p : Specialized) (number : Il.Slot)

theorem Draft.getElem?_places {s : LocalSlot} (hs : d.slots[number.toNat]? = some s) :
    d.places[number.toNat]? = some ⟨s.valueType.raw, s.pointer.raw⟩ := by
  rw [Draft.places, List.getElem?_map, hs]
  rfl

theorem Draft.places_congr {d d' : Draft} (hslots : d'.slots = d.slots) : d'.places = d.places := by
  rw [Draft.places, hslots, Draft.places]

theorem composes_slot : Composes a h d (BodyWriter.slot m number) fun d' is s =>
    d' = d ∧ is = [] ∧ d.slots[number.toNat]? = some s :=
  .get_bind (.lift (.ofOption _ _))

theorem composes_loadSlot : Composes a h d (BodyWriter.loadSlot m number) fun d' is v =>
    d'.slots = d.slots ∧
      ∃ load : Load, load.Reads d.places number ∧ load.value = v.raw ∧ is = [load.instruction] := by
  refine .bind (composes_slot m number) ?_
  rintro _ _ s ⟨rfl, rfl, hs⟩
  refine .bind .freshId ?_
  rintro _ _ v ⟨rfl, rfl, -⟩
  refine .bind (.write _ _) ?_
  rintro d' _ _ ⟨hslots, rfl⟩
  exact .pure ⟨hslots, ⟨⟨s.valueType.raw, s.pointer.raw⟩, v.raw⟩, Draft.getElem?_places number hs, rfl, rfl⟩

theorem composes_storeSlot (value : Id) : Composes a h d (BodyWriter.storeSlot m number value) fun d' is _ =>
    d'.slots = d.slots ∧ ∃ place : Typed, d.places[number.toNat]? = some place ∧
      is = [storeInstruction place.id value.raw] := by
  refine .bind (composes_slot m number) ?_
  rintro _ _ s ⟨rfl, rfl, hs⟩
  exact (Composes.write _ _).mono fun d' is _ _ ⟨hslots, his⟩ =>
    ⟨hslots, _, Draft.getElem?_places number hs, his⟩

theorem composes_loadSlots (arguments : List Il.Slot) :
    Composes a h d (arguments.mapM (BodyWriter.loadSlot m)) fun d' is vs => d'.slots = d.slots ∧
      ∃ loads : List Load, List.Forall₂ (Load.Reads d.places) arguments loads ∧
        loads.map Load.value = vs.map Id.raw ∧ is = loads.map Load.instruction := by
  refine .mapM (fun d' done is vs => d'.slots = d.slots ∧
    ∃ loads : List Load, List.Forall₂ (Load.Reads d.places) done loads ∧
      loads.map Load.value = vs.map Id.raw ∧ is = loads.map Load.instruction) arguments
    ⟨rfl, [], .nil, rfl, rfl⟩ ?_
  rintro slot - d' done _ vs ⟨hslots, loads, hreads, hvalues, rfl⟩
  refine (composes_loadSlot m slot).mono fun d'' is v _ ⟨hslots', load, hload, hvalue, his⟩ => ?_
  rw [Draft.places_congr hslots] at hload
  refine ⟨hslots'.trans hslots, loads ++ [load], List.rel_append hreads (.cons hload .nil), ?_, ?_⟩
  · simp [hvalues, hvalue]
  · simp [his]

/-- The type of an argument is the one that the specialization finds. -/
theorem composes_argumentType (htypes : d.slots.map LocalSlot.type = p.slotTypes) (declared : TypeId) :
    Composes a h d (BodyWriter.argumentType a m declared number) fun d' is type =>
      d' = d ∧ is = [] ∧ p.argumentType? a declared number = some type := by
  refine .bind (.lift (.ofOption _ _)) ?_
  rintro _ _ t ⟨rfl, rfl, ht⟩
  split
  · next hgeneric =>
    refine .bind (composes_slot m number) ?_
    rintro _ _ s ⟨rfl, rfl, hs⟩
    refine .pure ⟨rfl, rfl, ?_⟩
    simp only [Specialized.argumentType?, ht, hgeneric, if_true, ← htypes, List.getElem?_map, hs]
    rfl
  · next hplain =>
    refine .pure ⟨rfl, rfl, ?_⟩
    simp [Specialized.argumentType?, ht, hplain]

theorem delivers_callee (wire : UInt64) :
    Task.Delivers (I := lowering) (FormedFor a h) (BodyWriter.callee a wire) fun target =>
      Specialized.target? a wire = some target := by
  unfold BodyWriter.callee
  split
  · exact .fail _
  · next id hid =>
    refine (Task.Delivers.ofOption _ _).mono fun target htarget => ?_
    rw [Specialized.target?, hid]
    exact htarget

/-- A call is written to the function that it is specialized to. -/
theorem composes_call (htypes : d.slots.map LocalSlot.type = p.slotTypes)
    (result : Option Il.Slot) (wire : UInt64) (arguments : List Il.Slot) :
    Composes a h d (BodyWriter.call a m result wire arguments) fun d' is _ => d'.slots = d.slots ∧
      Becomes a p (h.referents d'.callees) d.places (.call result wire arguments) is := by
  refine .bind (.lift (delivers_callee wire)) ?_
  rintro d _ target ⟨rfl, rfl, htarget⟩
  dsimp only
  split
  · exact .fail_bind _
  next hcount =>
  rw [not_not] at hcount
  refine .bind (.mapM (fun d' done is types => d' = d ∧ is = [] ∧
    done.mapM (fun pair => p.argumentType? a pair.1 pair.2) = some types) _ ⟨rfl, rfl, rfl⟩ ?_) ?_
  · rintro pair - d' done _ types ⟨rfl, rfl, hdone⟩
    refine (composes_argumentType m p pair.2 htypes pair.1).mono fun d'' is type _ hkept => ?_
    exact ⟨hkept.1, hkept.2.1, by simp [hdone, hkept.2.2]⟩
  rintro d _ parameters ⟨rfl, rfl, hparameters⟩
  have hkey : p.calleeKey? a wire arguments = some ⟨target.id, parameters⟩ :=
    Specialized.calleeKey?_eq_some.mpr ⟨target, parameters, htarget, hcount, hparameters, rfl⟩
  have heffective : a.Numbered → FunctionKey.Effective a ⟨target.id, parameters⟩ := fun hnumbered m' hm' => by
    obtain ⟨target', htarget', -, -, hlength⟩ := Specialized.target?_of_calleeKey? hkey
    obtain rfl := Option.some.inj (htarget.symm.trans htarget')
    obtain ⟨id, -, hfound⟩ := Option.bind_eq_some_iff.mp htarget
    rw [hnumbered id target hfound, hfound] at hm'
    exact Option.some.inj hm' ▸ hlength
  refine .bind (.lift (.ask _)) ?_
  rintro d _ f ⟨rfl, rfl, hf, hformed⟩
  refine .bind (composes_loadSlots m arguments) ?_
  rintro d₁ _ values ⟨hslots₁, loads, hreads, hvalues, rfl⟩
  refine .bind .freshId ?_
  rintro d₁ _ v ⟨rfl, rfl, -⟩
  refine .bind (.write _ _) ?_
  rintro d₂ _ _ ⟨hslots₂, rfl⟩
  refine .bind (.callee fun hnumbered => hformed hnumbered (heffective hnumbered)) ?_
  rintro d₃ _ _ ⟨hd₃, rfl⟩
  have hslots₃ : d₃.slots = d.slots := by rw [hd₃, hslots₂, hslots₁]
  have hcalled : f ∈ d₃.callees := by simp [hd₃]
  have hbecomes : ∀ {d' : Draft} {stores : List Instruction}, d₃.callees ⊆ d'.callees →
      Stored d.places v.raw result stores →
      Becomes a p (h.referents d'.callees) d.places (.call result wire arguments)
        (loads.map Load.instruction ++
          callInstruction ⟨f.returnType.raw, f.id.raw⟩ v.raw (loads.map Load.value) :: stores) :=
    fun hsubset hstored => .call hkey ⟨f, hsubset hcalled, hf, rfl, rfl⟩ hreads hstored
  cases result with
  | none =>
    refine .pure ⟨hslots₃, ?_⟩
    simpa [callInstruction, hvalues] using hbecomes (List.Subset.refl _) .nowhere
  | some slot =>
    refine (composes_storeSlot m slot v).mono fun d₄ stores _ hgrows hstores => ?_
    obtain ⟨hslots₄, place, hplace, rfl⟩ := hstores
    rw [Draft.places_congr hslots₃] at hplace
    refine ⟨hslots₄.trans hslots₃, ?_⟩
    simpa [callInstruction, hvalues] using hbecomes hgrows.callees (.into hplace)

theorem delivers_global (wire : UInt64) :
    Task.Delivers (I := lowering) (FormedFor a h) (BodyWriter.global a wire) fun v =>
      ∃ field, EntityId.ofWire? wire = some field ∧
        (h.referents []).Global a field ⟨v.valueType.raw, v.id.raw⟩ := by
  unfold BodyWriter.global
  split
  · exact .fail _
  next field hfield =>
  refine .bind (.ofOption _ _) fun definition _ => ?_
  split
  · exact (Task.Delivers.ask (I := lowering) _).mono fun v hv => ⟨field, hfield, hv⟩
  · exact .fail _

theorem composes_loadConstant (bits : Word) : Composes a h d (BodyWriter.loadConstant m number bits)
    fun d' is _ => d'.slots = d.slots ∧ ∃ (place : Typed) (value : Word),
      d.places[number.toNat]? = some place ∧ (h.referents []).Constant bits ⟨place.type, value⟩ ∧
        is = [storeInstruction place.id value] := by
  refine .bind (composes_slot m number) ?_
  rintro d _ s ⟨rfl, rfl, hs⟩
  refine .bind (.lift (.ask _)) ?_
  rintro d _ v ⟨rfl, rfl, hv⟩
  refine (composes_storeSlot m number v).mono fun _ is _ _ ⟨hslots, place, hplace, his⟩ => ?_
  -- The slot is looked up a second time, with the same result.
  obtain rfl := Option.some.inj (hplace.symm.trans (Draft.getElem?_places number hs))
  exact ⟨hslots, _, v.raw, hplace, hv, his⟩

/-- Every operation is written as what it may become. -/
theorem composes_operation (htypes : d.slots.map LocalSlot.type = p.slotTypes)
    (op : Il.Operation) : Composes a h d (BodyWriter.operation a m op) fun d' is _ =>
      d'.slots = d.slots ∧ Becomes a p (h.referents d'.callees) d.places op is := by
  cases op with
  | call result wire arguments => exact composes_call m p htypes result wire arguments
  | ret => exact (Composes.write _ _).mono fun _ _ _ _ ⟨hslots, his⟩ => ⟨hslots, his ▸ .ret⟩
  | returnValue value =>
    cases value with
    | none => exact .fail _
    | some slot =>
      refine .bind (composes_loadSlot m slot) ?_
      rintro d₁ _ v ⟨hslots₁, load, hreads, hvalue, rfl⟩
      refine (Composes.write _ _).mono fun d₂ is _ _ ⟨hslots₂, his⟩ => ⟨hslots₂.trans hslots₁, ?_⟩
      rw [his, ← hvalue]
      exact .returnValue hreads
  | load destination source =>
    refine .bind (composes_loadSlot m source) ?_
    rintro d₁ _ v ⟨hslots₁, load, hreads, hvalue, rfl⟩
    refine (composes_storeSlot m destination v).mono fun d₂ is _ _ ⟨hslots₂, place, hplace, his⟩ =>
      ⟨hslots₂.trans hslots₁, ?_⟩
    rw [Draft.places_congr hslots₁] at hplace
    rw [his, ← hvalue]
    exact .load hreads (.into hplace)
  | loadField destination wire =>
    refine .bind (.lift (delivers_global wire)) ?_
    rintro d _ g ⟨rfl, rfl, field, hwire, hfield⟩
    refine .bind .freshId ?_
    rintro d _ v ⟨rfl, rfl, -⟩
    refine .bind (.write _ _) ?_
    rintro d₁ _ _ ⟨hslots₁, rfl⟩
    refine (composes_storeSlot m destination v).mono fun d₂ is _ _ ⟨hslots₂, place, hplace, his⟩ =>
      ⟨hslots₂.trans hslots₁, ?_⟩
    rw [Draft.places_congr hslots₁] at hplace
    rw [his]
    exact .loadField ⟨⟨g.valueType.raw, g.id.raw⟩, v.raw⟩ hwire hfield (.into hplace)
  | storeField wire source =>
    refine .bind (.lift (delivers_global wire)) ?_
    rintro d _ g ⟨rfl, rfl, field, hwire, hfield⟩
    refine .bind (composes_loadSlot m source) ?_
    rintro d₁ _ v ⟨hslots₁, load, hreads, hvalue, rfl⟩
    refine (Composes.write _ _).mono fun d₂ is _ _ ⟨hslots₂, his⟩ => ⟨hslots₂.trans hslots₁, ?_⟩
    rw [his, ← hvalue]
    exact .storeField ⟨g.valueType.raw, g.id.raw⟩ hwire hfield hreads
  | loadUInt32 destination bits =>
    exact (composes_loadConstant m destination bits).mono
      fun _ _ _ _ ⟨hslots, _, _, hplace, hconstant, his⟩ =>
        ⟨hslots, his ▸ .loadUInt32 hplace hconstant⟩
  | loadFloat32 destination bits =>
    exact (composes_loadConstant m destination bits).mono
      fun _ _ _ _ ⟨hslots, _, _, hplace, hconstant, his⟩ =>
        ⟨hslots, his ▸ .loadFloat32 hplace hconstant⟩

/-- The code of a method is written operation by operation. -/
theorem composes_code (htypes : d.slots.map LocalSlot.type = p.slotTypes)
    (code : List Il.Instruction) :
    Composes a h d (code.forM (BodyWriter.instruction a m)) fun d' is _ => d'.slots = d.slots ∧
      ∃ groups, is = groups.flatten ∧
        CodeBecomes a p (h.referents d'.callees) d.places code groups := by
  refine .forM (fun d' done is => d'.slots = d.slots ∧ ∃ groups, is = groups.flatten ∧
    CodeBecomes a p (h.referents d'.callees) d.places done groups) code ⟨rfl, [], rfl, .nil⟩ ?_
  rintro i - d₁ done _ ⟨hslots₁, groups, rfl, hgroups⟩
  unfold BodyWriter.instruction
  split
  · exact .fail _
  next op hop =>
  refine (composes_operation m p (hslots₁ ▸ htypes) op).mono
    fun d₂ is _ hgrows ⟨hslots₂, hbecomes⟩ => ⟨hslots₂.trans hslots₁, groups ++ [is], by simp, ?_⟩
  rw [Draft.places_congr hslots₁] at hbecomes
  have hwithin := h.referents_within (List.Subset.refl h) hgrows.callees
  exact List.rel_append (hgroups.mono hwithin) (.cons ⟨op, hop, hbecomes⟩ .nil)

end Operations

/-! ## Functions -/

theorem delivers_type (type : TypeId) :
    Task.Delivers (I := lowering) (FormedFor a h) (Construct.type a type) fun _ => True :=
  .of_confined (@silent_type (· = .freshId) a type)

/-- A variable is declared and becomes the next slot. -/
theorem composes_declareSlot (type : TypeId) :
    Composes a h d (BodyWriter.declareSlot a type) fun d' is _ =>
      ∃ v : SlotVariable, d'.places = d.places ++ [v.place] ∧
        d'.slots.map LocalSlot.type = d.slots.map LocalSlot.type ++ [type] ∧
        (h.referents []).Pointer .function v.holds v.type ∧
        is = [⟨Op.variable.code, [v.type, v.id, StorageClass.function.code]⟩] := by
  refine .bind (.lift (delivers_type type)) ?_
  rintro d _ valueType ⟨rfl, rfl, -⟩
  refine .bind (.lift (.ask _)) ?_
  rintro d _ pointerType ⟨rfl, rfl, hpointer⟩
  refine .bind .freshId ?_
  rintro d _ pointer ⟨rfl, rfl, -⟩
  refine .bind (.write _ _) ?_
  rintro d₁ _ _ ⟨hslots, rfl⟩
  refine (Composes.addSlot _).mono fun d₂ is _ _ ⟨hd₂, his⟩ =>
    ⟨⟨pointerType.raw, pointer.raw, valueType.raw⟩, ?_, ?_, hpointer, ?_⟩
  · rw [hd₂, Draft.places, Draft.places, hslots, List.map_append]
    rfl
  · rw [hd₂, hslots, List.map_append]
    rfl
  · rw [his]
    rfl

/-- Variables are declared for the slots in their order. -/
theorem composes_declareSlots (m : MethodDef) (s : Specialization) :
    Composes a h d (BodyWriter.declareSlots a m s) fun d' is _ =>
      ∃ vs : List SlotVariable, d'.places = d.places ++ vs.map SlotVariable.place ∧
        d'.slots.map LocalSlot.type = d.slots.map LocalSlot.type ++ m.backedTypes.map s.apply ∧
        vs.length = m.backedCount ∧ (∀ v ∈ vs, (h.referents []).Pointer .function v.holds v.type) ∧
        is = vs.map fun v => ⟨Op.variable.code, [v.type, v.id, StorageClass.function.code]⟩ := by
  -- The invariant of the loop: one variable per slot type that has been declared.
  rw [BodyWriter.declareSlots_eq, ← m.length_backedTypes]
  refine .forM (fun d' done is => ∃ vs : List SlotVariable,
    d'.places = d.places ++ vs.map SlotVariable.place ∧
    d'.slots.map LocalSlot.type = d.slots.map LocalSlot.type ++ done.map s.apply ∧
    vs.length = done.length ∧ (∀ v ∈ vs, (h.referents []).Pointer .function v.holds v.type) ∧
    is = vs.map fun v => ⟨Op.variable.code, [v.type, v.id, StorageClass.function.code]⟩) m.backedTypes
    ⟨[], by simp, by simp, rfl, nofun, rfl⟩ ?_
  rintro type - d₁ done _ ⟨vs, hplaces, htypes, hlength, hpointers, rfl⟩
  refine (composes_declareSlot (s.apply type)).mono
    fun d₂ is _ _ ⟨v, hplaces', htypes', hpointer, his⟩ => ⟨vs ++ [v], ?_, ?_, ?_, ?_, ?_⟩
  · rw [hplaces', hplaces, List.map_append, List.append_assoc]
    rfl
  · rw [htypes', htypes, List.map_append, List.append_assoc]
    rfl
  · simp [hlength]
  · exact List.forall_mem_append.mpr ⟨hpointers, List.forall_mem_singleton.mpr hpointer⟩
  · simp [his]

/-- A function begins with its first instruction and its parameters. -/
theorem composes_signature (id returnType functionType : Id) (types : List Id) :
    Composes a h d (BodyWriter.signature id returnType functionType types) fun d' is values =>
      d'.slots = d.slots ∧ ∃ ps : List Typed, ps.map Typed.type = types.map Id.raw ∧
        ps.map Typed.id = values.map Id.raw ∧
        is = ⟨Op.function.code, [returnType.raw, id.raw, noFunctionControl, functionType.raw]⟩ ::
          ps.map fun p => ⟨Op.functionParameter.code, [p.type, p.id]⟩ := by
  refine .bind (.write _ _) ?_
  rintro d₁ _ _ ⟨hslots₁, rfl⟩
  refine Composes.mono (.mapM (fun d' done is values => d'.slots = d₁.slots ∧ ∃ ps : List Typed,
    ps.map Typed.type = done.map Id.raw ∧ ps.map Typed.id = values.map Id.raw ∧
      is = ps.map (fun p => ⟨Op.functionParameter.code, [p.type, p.id]⟩)) types ⟨rfl, [], rfl, rfl, rfl⟩ ?_)
    fun d₂ is values _ ⟨hslots₂, ps, htypes, hvalues, his⟩ =>
      ⟨hslots₂.trans hslots₁, ps, htypes, hvalues, by rw [his]; rfl⟩
  rintro type - d₂ done _ values ⟨hslots₂, ps, htypes, hvalues, rfl⟩
  refine .bind .freshId ?_
  rintro d₂ _ v ⟨rfl, rfl, -⟩
  refine .bind (.write _ _) ?_
  rintro d₃ _ _ ⟨hslots₃, rfl⟩
  refine .pure ⟨hslots₃.trans hslots₂, ps ++ [⟨type.raw, v.raw⟩], ?_, ?_, ?_⟩
  · simp [htypes]
  · simp [hvalues]
  · simp

theorem composes_stores (pairs : List (LocalSlot × Id)) :
    Composes a h d (pairs.forM fun pair => BodyWriter.write .store [pair.1.pointer.raw, pair.2.raw])
      fun d' is _ => d'.slots = d.slots ∧
        is = pairs.map fun pair => storeInstruction pair.1.pointer.raw pair.2.raw := by
  refine .forM (fun d' done is => d'.slots = d.slots ∧
    is = done.map fun pair => storeInstruction pair.1.pointer.raw pair.2.raw) pairs ⟨rfl, rfl⟩ ?_
  rintro pair - d₁ done _ ⟨hslots₁, rfl⟩
  refine (Composes.write _ _).mono fun d₂ is _ _ ⟨hslots₂, his⟩ => ⟨hslots₂.trans hslots₁, ?_⟩
  rw [his, List.map_append]
  rfl

/-- The body of a function is a block. -/
theorem composes_body {key : FunctionKey} {p : Specialized}
    (hp : a.specialized? key = some p) (id returnType functionType : Id) (types : List Id)
    (hlength : types.length = key.parameters.length)
    (htype : (h.referents []).Signature returnType.raw (types.map Id.raw) functionType.raw) :
    Composes a h .empty
      (BodyWriter.body a p.method p.specialization id returnType functionType types) fun d' is _ =>
        ∃ b : FunctionBlock, b.id = id.raw ∧ b.returnType = returnType.raw ∧ is = b.instructions ∧
          (key.Effective a → b.Implements a (h.referents d'.callees) key p) := by
  refine .bind (composes_signature id returnType functionType types) ?_
  rintro d₁ _ values ⟨hslots₁, ps, hps, hvalues, rfl⟩
  refine .bind .freshId ?_
  rintro d₁ _ label ⟨rfl, rfl, -⟩
  refine .bind (.write _ _) ?_
  rintro d₂ _ _ ⟨hslots₂, rfl⟩
  refine .bind (composes_declareSlots p.method p.specialization) ?_
  rintro d₃ _ _ ⟨vs, hplaces, htypes, hvs, hpointers, rfl⟩
  refine .get_bind ?_
  refine .bind (composes_stores _) ?_
  rintro d₄ _ _ ⟨hslots₄, rfl⟩
  -- No slot is declared before the label, so the places are those of the variables.
  have hnone : d₂.slots = [] := hslots₂.trans hslots₁
  have hslotTypes : d₄.slots.map LocalSlot.type = p.slotTypes := by
    rw [hslots₄, htypes, hnone, Specialized.slotTypes]
    rfl
  refine .bind (composes_code p.method p hslotTypes p.method.code.instructions) ?_
  rintro d₅ _ _ ⟨-, groups, rfl, hgroups⟩
  refine (Composes.write _ _).mono fun d₆ is _ hgrows ⟨_, his⟩ => ?_
  have hbacked : d₃.places = vs.map SlotVariable.place := by
    rw [hplaces, Draft.places, hnone]
    rfl
  refine ⟨⟨returnType.raw, id.raw, functionType.raw, ps, label.raw, vs, groups⟩, rfl, rfl, ?_, ?_⟩
  -- The stores were written through slots and values; the block speaks of variables and parameters.
  · have hstores : ((d₃.slots.zip values).map fun pair =>
        storeInstruction pair.1.pointer.raw pair.2.raw) =
        (vs.zip ps).map fun pair => storeInstruction pair.1.id pair.2.id := by
      have hids : d₃.slots.map (fun s => s.pointer.raw) = vs.map SlotVariable.id := by
        have hsame := congrArg (List.map Typed.id) hbacked
        rwa [Draft.places, List.map_map, List.map_map] at hsame
      have hzip : (d₃.slots.map fun s => s.pointer.raw).zip (values.map Id.raw) =
          (vs.map SlotVariable.id).zip (ps.map Typed.id) := by
        rw [hvalues, hids]
      simpa [List.zip_map, Function.comp_def] using
        congrArg (List.map fun pair => storeInstruction pair.1 pair.2) hzip
    simp [his, hstores, FunctionBlock.instructions, FunctionBlock.opening]
  · have hparameters : ps.length = types.length := by
      simpa using congrArg List.length hps
    have hmethod := (Assembly.specialized?_eq_some.mp hp).2.1
    refine fun heffective =>
      -- Callees are only ever added, so what an operation became early it has become in the end.
      ⟨hp, hparameters.trans hlength, heffective _ hmethod, hps ▸ htype, hvs, hpointers, ?_⟩
    rw [Draft.places_congr hslots₄, hbacked] at hgroups
    exact hgroups.mono (h.referents_within (List.Subset.refl h) hgrows.callees)

/-- What is made for a key that has a type for each parameter is formed. -/
theorem delivers_buildFunction (a : Assembly) (h : Inventory) (key : FunctionKey) :
    Task.Delivers (I := lowering) (FormedFor a h) (Construct.buildFunction a key)
      (FormedFor a h (.function key)) := by
  refine .bind (.ofOption _ _) fun m hm => ?_
  split
  · exact .fail _
  next s hs =>
  have hp : a.specialized? key = some ⟨key, m, s⟩ := Assembly.specialized?_eq_some.mpr ⟨rfl, hm, hs⟩
  refine .bind (.of_confined (@silent_returnType (· = .freshId) a _)) fun returnType _ => ?_
  refine .bind (.mapM _ fun type _ => delivers_type type) fun types ⟨hlength, _⟩ => ?_
  refine .bind (.ask _) fun functionType hfunction => .bind (.perform _) fun id _ => ?_
  refine .bind (composes_body hp id returnType functionType types hlength hfunction) ?_
  rintro ⟨_, d⟩ ⟨_, hgrows, b, hid, hreturn, rfl, himplements⟩
  refine .pure ⟨rfl, fun hnumbered heffective => ?_⟩
  exact .intro b hid hreturn (by simpa [Draft.empty] using hgrows.body) (himplements heffective)
    (hgrows.formed hnumbered nofun)

end ShaderLowering
