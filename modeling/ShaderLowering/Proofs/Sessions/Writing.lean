import ShaderLowering.Proofs.Sessions.Asking

/-!
# Functions keep to the regime

Of a draft only the types of its slots matter for what is asked for: `Fills` is what is shown of the steps
that write a function, from slots of some types to slots of others.  A function is written to its end only
if it is given all that it needs, and is given up of its own accord only if something is wrong with it
(`keeps_buildFunction`).  The same goes for the other entities (`keeps_factory`), so the regime is lawful
(`regime_lawful`).
-/

namespace ShaderLowering

open Construction (Task)
open Spirv

variable {a : Assembly} {had : Key → Prop} {p : Specialized} {types types' types'' : List TypeId}
  {α β : Type}

/-- A step that writes a function obeys the regime, leads from a draft with slots of some types to one
with slots of others, and ends with a value of which `R` holds. -/
def Fills (a : Assembly) (had : Key → Prop) (key : FunctionKey) (x : BodyWriter α) (types types' : List TypeId)
    (R : α → Prop) : Prop :=
  ∀ d : Draft, d.slots.map LocalSlot.type = types →
    Keeps a had (.function key) (x.run d) fun r => r.2.slots.map LocalSlot.type = types' ∧ R r.1

namespace Fills

variable {key : FunctionKey} {x : BodyWriter α} {f : α → BodyWriter β} {R R' : α → Prop}
  {S : β → Prop}

theorem mono (hx : Fills a had key x types types' R) (himp : ∀ v, R v → R' v) :
    Fills a had key x types types' R' :=
  fun d hd => .mono (hx d hd) fun _ hr => ⟨hr.1, himp _ hr.2⟩

theorem bind (hx : Fills a had key x types types' R)
    (hf : ∀ v, R v → Fills a had key (f v) types' types'' S) :
    Fills a had key (x >>= f) types types'' S := by
  intro d hd
  rw [StateT.run_bind]
  exact .bind (hx d hd) fun r hr => hf r.1 hr.2 r.2 hr.1

theorem pure {v : α} (hv : R v) : Fills a had key (Pure.pure v : BodyWriter α) types types R := by
  intro d hd
  rw [StateT.run_pure]
  exact .pure ⟨hd, hv⟩

/-- A step that leaves the draft alone. -/
theorem lift {t : Construct α} (ht : Keeps a had (.function key) t R) :
    Fills a had key (liftM t : BodyWriter α) types types R :=
  fun _ hd => .bind ht fun _ hv => .pure ⟨hd, hv⟩

theorem fail {fault : Fault} (hbad : Wrong a (.function key)) :
    Fills a had key (BodyWriter.fail fault : BodyWriter α) types types' R :=
  fun _ _ => .bind (R := fun _ => False) (.fail hbad) fun _ hno => hno.elim

theorem fail_bind {fault : Fault} (hbad : Wrong a (.function key)) :
    Fills a had key ((BodyWriter.fail fault : BodyWriter α) >>= f) types types' S := by
  have hfail : Fills a had key (BodyWriter.fail fault : BodyWriter α) types types fun _ => False :=
    .fail hbad
  exact .bind hfail fun _ hno => hno.elim

theorem ofOption {fault : Fault} {o : Option α} (hbad : o = none → Wrong a (.function key)) :
    Fills a had key (BodyWriter.ofOption fault o : BodyWriter α) types types fun v => o = some v :=
  .lift (.ofOption hbad)

/-- A step that depends on the draft. -/
theorem get_bind {f : Draft → BodyWriter α}
    (hf : ∀ d : Draft, d.slots.map LocalSlot.type = types → Fills a had key (f d) types types' R) :
    Fills a had key (get >>= f) types types' R := by
  intro d hd
  rw [StateT.run_bind, StateT.run_get, pure_bind]
  exact hf d hd d hd

theorem modify {f : Draft → Draft}
    (hf : ∀ d : Draft, d.slots.map LocalSlot.type = types →
      (f d).slots.map LocalSlot.type = types') :
    Fills a had key (modify f) types types' fun _ => True := by
  intro d hd
  rw [StateT.run_modify]
  exact .pure ⟨hf d hd, trivial⟩

theorem write (op : Op) (operands : List Word) :
    Fills a had key (BodyWriter.write op operands) types types fun _ => True :=
  .modify fun _ hd => hd

theorem freshId : Fills a had key BodyWriter.freshId types types fun _ => True :=
  .lift (.perform _)

/-- A step for each member of a list. -/
theorem forM {xs : List α} {f : α → BodyWriter PUnit} {C : α → Prop}
    (hf : ∀ x ∈ xs, Fills a had key (f x) types types fun _ => C x) :
    Fills a had key (xs.forM f) types types fun _ => ∀ x ∈ xs, C x := by
  induction xs with
  | nil => exact .pure nofun
  | cons x xs ih =>
    refine .bind (hf x List.mem_cons_self) fun _ hx => ?_
    exact .mono (ih fun x' hx' => hf x' (List.mem_cons_of_mem x hx')) fun _ hxs =>
      List.forall_mem_cons.mpr ⟨hx, hxs⟩

theorem mapM {xs : List α} {f : α → BodyWriter β} {P : α → β → Prop}
    (hf : ∀ x ∈ xs, Fills a had key (f x) types types (P x)) :
    Fills a had key (xs.mapM f) types types fun vs => List.Forall₂ P xs vs := by
  induction xs with
  | nil => exact .pure .nil
  | cons x xs ih =>
    rw [List.mapM_cons]
    refine .bind (hf x List.mem_cons_self) fun v hv => ?_
    exact .bind (ih fun x' hx' => hf x' (List.mem_cons_of_mem x hx')) fun vs hvs => .pure (.cons hv hvs)

end Fills

/-! ## Slots -/

section Slots

variable {m : MethodDef} {number : Il.Slot}

/-- The slot with a number is had, with its type. -/
theorem fills_slot (hbad : ¬p.HasSlot number → Wrong a (.function p.key)) :
    Fills a had p.key (BodyWriter.slot m number) p.slotTypes p.slotTypes fun s =>
      p.slotTypes[number.toNat]? = some s.type := by
  refine .get_bind fun d hd => .mono (.ofOption fun hnone => hbad fun hhas => ?_) fun s hs => ?_
  · rw [Specialized.HasSlot, ← hd, List.length_map] at hhas
    rw [List.getElem?_eq_getElem hhas] at hnone
    cases hnone
  · rw [← hd, List.getElem?_map, hs]
    rfl

theorem hasSlot_of_eq {t : TypeId} (h : p.slotTypes[number.toNat]? = some t) : p.HasSlot number :=
  (List.getElem?_eq_some_iff.mp h).1

theorem fills_loadSlot (hbad : ¬p.HasSlot number → Wrong a (.function p.key)) :
    Fills a had p.key (BodyWriter.loadSlot m number) p.slotTypes p.slotTypes fun _ =>
      p.HasSlot number := by
  refine .bind (fills_slot hbad) fun s hs => .bind .freshId fun i _ => ?_
  exact .bind (.write _ _) fun _ _ => .pure (hasSlot_of_eq hs)

theorem fills_storeSlot (value : Id) (hbad : ¬p.HasSlot number → Wrong a (.function p.key)) :
    Fills a had p.key (BodyWriter.storeSlot m number value) p.slotTypes p.slotTypes fun _ =>
      p.HasSlot number :=
  .bind (fills_slot hbad) fun _ hs => .mono (.write _ _) fun _ _ => hasSlot_of_eq hs

/-- The type that a call gives to a parameter is had. -/
theorem fills_argumentType {declared : TypeId}
    (hbad : p.argumentType? a declared number = none → Wrong a (.function p.key)) :
    Fills a had p.key (BodyWriter.argumentType a m declared number) p.slotTypes p.slotTypes fun t =>
      p.argumentType? a declared number = some t := by
  refine .bind (.lift (.ofOption fun hnone => hbad ?_)) fun t ht => ?_
  · rw [Specialized.argumentType?, hnone]
  have htype : p.argumentType? a declared number =
      if t.isGeneric then p.slotTypes[number.toNat]? else some declared := by
    rw [Specialized.argumentType?, ht]
  split
  · next hgeneric =>
    rw [htype, if_pos hgeneric] at hbad ⊢
    refine .bind (fills_slot fun hno => hbad ?_) fun s hs => .pure hs
    exact List.getElem?_eq_none (Nat.le_of_not_lt hno)
  · next hgeneric =>
    rw [htype, if_neg hgeneric]
    exact .pure rfl

end Slots

/-! ## Operations -/

/-- The key of a call is listed if the types of the slots are there. -/
theorem listed_of_calleeKey? (hnumbered : a.Numbered) (hslots : ∀ id ∈ p.slotTypes, (a.type? id).isSome)
    {wire : UInt64} {slots : List Il.Slot} {callee : FunctionKey}
    (hcallee : p.calleeKey? a wire slots = some callee) : Key.Listed a (.function callee) := by
  obtain ⟨target, htarget, hid, -, hlength⟩ := Specialized.target?_of_calleeKey? hcallee
  obtain ⟨target', parameters, htarget', hslotsLength, hparameters, rfl⟩ :=
    Specialized.calleeKey?_eq_some.mp hcallee
  obtain rfl := Option.some.inj (htarget.symm.trans htarget')
  obtain ⟨id, -, hfound⟩ := Option.bind_eq_some_iff.mp htarget
  refine ⟨target, ?_, hlength, fun t ht => ?_⟩
  · rw [hid, hnumbered id target hfound]
    exact hfound
  -- Each argument's type is a slot's type or a declared one, and either is there.
  · obtain ⟨i, hi, rfl⟩ := List.getElem_of_mem ht
    have hall := mapM_eq_some.mp hparameters
    have hargument := hall.get (hall.length_eq ▸ hi) hi
    simp only [List.get_eq_getElem, Specialized.argumentType?] at hargument
    split at hargument
    · cases hargument
    · next declared hdeclared =>
      split at hargument
      · exact hslots _ (List.mem_of_getElem? hargument)
      · rw [← Option.some.inj hargument, hdeclared]
        rfl

section Operations

variable {m : MethodDef} {op : Il.Operation} (hp : a.specialized? p.key = some p) (hop : p.Performs op)

include hp hop

/-- What is wrong with an operation is wrong with the function. -/
theorem wrong_of_not_refers (hno : ¬p.Refers a op) : Wrong a (.function p.key) := by
  refine .inl fun hsound => hno ?_
  obtain ⟨p', hp', hall⟩ := hsound
  obtain rfl := Option.some.inj (hp.symm.trans hp')
  obtain ⟨i, hi, hdecode⟩ := hop
  obtain ⟨op', hop', hrefers⟩ := hall i hi
  obtain rfl := Except.ok.inj (hdecode.symm.trans hop')
  exact hrefers

/-- The global variable that an operation names is had. -/
theorem fills_global {wire : UInt64} (hwire : op.field? = some wire)
    (hbad : (EntityId.ofWire? wire : Option FieldId) = none → ¬p.Refers a op) :
    Fills a had p.key (liftM (BodyWriter.global a wire)) types types fun _ =>
      ∃ field, EntityId.ofWire? wire = some field ∧ had (.variable field) := by
  unfold BodyWriter.global
  cases hfield : (EntityId.ofWire? wire : Option FieldId) with
  | none => exact Fills.fail (wrong_of_not_refers hp hop (hbad hfield))
  | some field =>
    have hneeds : Needs a (.function p.key) (.variable field) := .global hp hop hwire hfield
    refine .lift (.bind (.ofOption fun hnone => .inr ⟨_, hneeds, ?_⟩) fun f hf => ?_)
    · rintro ⟨f, hf, -⟩
      rw [hnone] at hf
      cases hf
    · split
      · next hstatic =>
        exact .mono (.ask (.needed hneeds ⟨f, hf, hstatic⟩)) fun _ hgood => ⟨field, rfl, hgood⟩
      · next hinstance =>
        refine .fail (.inr ⟨_, hneeds, ?_⟩)
        rintro ⟨f', hf', hstatic⟩
        obtain rfl := Option.some.inj (hf.symm.trans hf')
        exact hinstance hstatic

theorem fills_loadConstant {destination : Il.Slot} (bits : Word)
    (hbad : ¬p.HasSlot destination → ¬p.Refers a op) :
    Fills a had p.key (BodyWriter.loadConstant m destination bits) p.slotTypes p.slotTypes fun _ =>
      p.HasSlot destination := by
  have hslot : ¬p.HasSlot destination → Wrong a (.function p.key) := fun hno =>
    wrong_of_not_refers hp hop (hbad hno)
  refine .bind (fills_slot hslot) fun s _ => ?_
  exact .bind (.lift (keeps_constant (k := .function p.key) (Nat.succ_pos 2) _ _)) fun i _ =>
    fills_storeSlot i hslot

end Operations

section Calls

variable {m : MethodDef} {result : Option Il.Slot} {wire : UInt64} {slots : List Il.Slot}
  (hp : a.specialized? p.key = some p) (hop : p.Performs (.call result wire slots))

include hp hop

/-- The method that a call names is had. -/
theorem fills_callee : Fills a had p.key (liftM (BodyWriter.callee a wire)) types types fun target =>
    Specialized.target? a wire = some target := by
  have hbad : Specialized.target? a wire = none → Wrong a (.function p.key) := by
    intro hnone
    refine wrong_of_not_refers hp hop fun hrefers => ?_
    simp [Specialized.Refers, Specialized.calleeKey?, hnone] at hrefers
  unfold BodyWriter.callee
  cases hid : (EntityId.ofWire? wire : Option MethodId) with
  | none => exact Fills.fail (hbad (by rw [Specialized.target?, hid]; rfl))
  | some id =>
    have htarget : Specialized.target? a wire = a.method? id := by
      rw [Specialized.target?, hid]
      rfl
    rw [htarget] at hbad ⊢
    exact .lift (.ofOption hbad)

/-- The types that a call gives to the parameters of the callee are had. -/
theorem fills_argumentTypes {target : MethodDef} (htarget : Specialized.target? a wire = some target)
    (hlength : slots.length = target.effectiveParameters.length) :
    Fills a had p.key ((target.effectiveParameters.zip slots).mapM fun pair =>
        BodyWriter.argumentType a m pair.1 pair.2) p.slotTypes p.slotTypes fun parameters =>
      p.calleeKey? a wire slots = some ⟨target.id, parameters⟩ := by
  refine .mono (.mapM fun pair hpair => fills_argumentType fun hnone => ?_) fun parameters hall => ?_
  · refine wrong_of_not_refers hp hop fun hrefers => ?_
    obtain ⟨callee, hcallee⟩ := Option.isSome_iff_exists.mp hrefers.1
    obtain ⟨target', parameters, htarget', -, hparameters, -⟩ :=
      Specialized.calleeKey?_eq_some.mp hcallee
    obtain rfl := Option.some.inj (htarget.symm.trans htarget')
    obtain ⟨t, -, ht⟩ := forall₂_mem_left (mapM_eq_some.mp hparameters) hpair
    rw [hnone] at ht
    cases ht
  · exact Specialized.calleeKey?_eq_some.mpr
      ⟨target, parameters, htarget, hlength, mapM_eq_some.mpr hall, rfl⟩

/-- A call is written only if it is supplied. -/
theorem fills_call (hnumbered : a.Numbered) (hslots : ∀ id ∈ p.slotTypes, (a.type? id).isSome) :
    Fills a had p.key (BodyWriter.call a m result wire slots) p.slotTypes p.slotTypes fun _ =>
      p.Supplied a had (.call result wire slots) := by
  have hbad : ¬p.Refers a (.call result wire slots) → Wrong a (.function p.key) :=
    wrong_of_not_refers hp hop
  refine .bind (fills_callee hp hop) fun target htarget => ?_
  by_cases hlength : slots.length = target.effectiveParameters.length
  case neg =>
    dsimp only
    rw [if_pos hlength]
    refine .fail_bind (hbad fun hrefers => ?_)
    have hsome := hrefers.1
    simp [Specialized.calleeKey?, htarget, hlength] at hsome
  dsimp only
  rw [if_neg (not_not_intro hlength)]
  refine .bind (fills_argumentTypes hp hop htarget hlength) fun parameters hcallee => ?_
  have hlisted := listed_of_calleeKey? hnumbered hslots hcallee
  refine .bind (.lift (.ask (.needed (.callee hp hop hcallee) hlisted))) fun f hhad => ?_
  refine .bind (.mapM fun slot hslot => fills_loadSlot fun hno =>
    hbad fun hrefers => hno (hrefers.2.1 slot hslot)) fun values hvalues => ?_
  have harguments : ∀ slot ∈ slots, p.HasSlot slot := fun slot hslot => by
    obtain ⟨-, -, hhas⟩ := forall₂_mem_left hvalues hslot
    exact hhas
  -- The store into the result slot comes last, so what is supplied waits for it.
  have hsupplied : (∀ slot ∈ result, p.HasSlot slot) → p.Supplied a had (.call result wire slots) := by
    refine fun hresult => ⟨⟨?_, harguments, hresult⟩, fun wire' field hwire => ?_, fun key hkey => ?_⟩
    · rw [hcallee]
      rfl
    · cases hwire
    · obtain rfl : key = ⟨target.id, parameters⟩ := by simpa [Specialized.called, hcallee] using hkey
      exact hhad
  refine .bind .freshId fun value _ => .bind (.write _ _) fun _ _ => ?_
  refine .bind (.modify fun _ hd => hd) fun _ _ => ?_
  cases result with
  | none => exact .pure (hsupplied fun slot hslot => by cases hslot)
  | some number =>
    refine .mono (fills_storeSlot value fun hno => hbad fun hrefers => hno ?_) fun _ hhas => ?_
    · exact hrefers.2.2 number rfl
    · refine hsupplied fun slot hslot => ?_
      obtain rfl := Option.some.inj hslot
      exact hhas

end Calls

/-! ## Code -/

section Code

variable {m : MethodDef} (hp : a.specialized? p.key = some p) (hnumbered : a.Numbered)
  (hslots : ∀ id ∈ p.slotTypes, (a.type? id).isSome)

include hp hnumbered hslots

/-- An operation is written only if it is supplied. -/
theorem fills_operation {op : Il.Operation} (hop : p.Performs op) :
    Fills a had p.key (BodyWriter.operation a m op) p.slotTypes p.slotTypes fun _ =>
      p.Supplied a had op := by
  have hbad : ¬p.Refers a op → Wrong a (.function p.key) := wrong_of_not_refers hp hop
  cases op with
  | call result wire slots => exact fills_call hp hop hnumbered hslots
  | ret => exact .mono (.write _ _) fun _ _ => .of_refers trivial rfl rfl
  | returnValue value =>
    cases value with
    | none => exact .fail (hbad fun ⟨_, hslot, _⟩ => nomatch hslot)
    | some slot =>
      refine .bind (fills_loadSlot fun hno => hbad ?_) fun i hhas => ?_
      · rintro ⟨slot', hslot, hhas⟩
        obtain rfl := Option.some.inj hslot
        exact hno hhas
      · exact .mono (.write _ _) fun _ _ => .of_refers ⟨slot, rfl, hhas⟩ rfl rfl
  | load destination source =>
    refine .bind (fills_loadSlot fun hno => hbad fun hrefers => hno hrefers.2) fun i hsource => ?_
    exact .mono (fills_storeSlot i fun hno => hbad fun hrefers => hno hrefers.1) fun _ hdestination =>
      .of_refers ⟨hdestination, hsource⟩ rfl rfl
  | loadField destination wire =>
    refine .bind (fills_global hp hop rfl fun hnone hrefers => ?_) fun v ⟨field, hfield, hv⟩ => ?_
    · simp [Specialized.Refers, hnone] at hrefers
    refine .bind .freshId fun i _ => .bind (.write _ _) fun _ _ => ?_
    exact .mono (fills_storeSlot i fun hno => hbad fun hrefers => hno hrefers.2) fun _ hhas =>
      .of_field ⟨by rw [hfield]; rfl, hhas⟩ rfl hfield hv rfl
  | storeField wire source =>
    refine .bind (fills_global hp hop rfl fun hnone hrefers => ?_) fun v ⟨field, hfield, hv⟩ => ?_
    · simp [Specialized.Refers, hnone] at hrefers
    refine .bind (fills_loadSlot fun hno => hbad fun hrefers => hno hrefers.2) fun i hhas => ?_
    exact .mono (.write _ _) fun _ _ => .of_field ⟨by rw [hfield]; rfl, hhas⟩ rfl hfield hv rfl
  | loadUInt32 destination bits =>
    exact .mono (fills_loadConstant hp hop bits id) fun _ hhas => .of_refers hhas rfl rfl
  | loadFloat32 destination bits =>
    exact .mono (fills_loadConstant hp hop bits id) fun _ hhas => .of_refers hhas rfl rfl

/-- An instruction is written only if it can be decoded and is supplied. -/
theorem fills_instruction {i : Il.Instruction} (hi : i ∈ p.method.code.instructions) :
    Fills a had p.key (BodyWriter.instruction a m i) p.slotTypes p.slotTypes fun _ =>
      ∃ op, i.decode = .ok op ∧ p.Supplied a had op := by
  unfold BodyWriter.instruction
  split
  · next cause hdecode =>
    refine .fail (.inl ?_)
    rintro ⟨p', hp', hall⟩
    obtain rfl := Option.some.inj (hp.symm.trans hp')
    obtain ⟨op, hop, -⟩ := hall i hi
    rw [hdecode] at hop
    cases hop
  · next op hdecode =>
    exact .mono (fills_operation hp hnumbered hslots ⟨i, hi, hdecode⟩) fun _ hsupplied =>
      ⟨op, hdecode, hsupplied⟩

end Code

/-! ## Functions -/

/-- Slots are declared only if their types are there and had. -/
theorem fills_slots (declared : List TypeId)
    (hneeds : ∀ id ∈ declared.map p.specialization.apply, Needs a (.function p.key) (.type id)) :
    Fills a had p.key (declared.forM fun id => BodyWriter.declareSlot a (p.specialization.apply id)) types
      (types ++ declared.map p.specialization.apply) fun _ =>
        ∀ id ∈ declared.map p.specialization.apply, (a.type? id).isSome ∧ had (.type id) := by
  induction declared generalizing types with
  | nil =>
    rw [List.map_nil, List.append_nil]
    exact .pure nofun
  | cons id declared ih =>
    rw [List.map_cons] at hneeds ⊢
    set concrete := p.specialization.apply id with hconcrete
    have hone : Fills a had p.key (BodyWriter.declareSlot a concrete) types (types ++ [concrete]) fun _ =>
        (a.type? concrete).isSome ∧ had (.type concrete) := by
      refine .bind (.lift (keeps_type (hneeds concrete List.mem_cons_self))) fun i hhad => ?_
      refine .bind (.lift (keeps_shape (k := .function p.key) (Nat.succ_pos 2) _)) fun j _ => ?_
      refine .bind .freshId fun v _ => .bind (.write _ _) fun _ _ => ?_
      exact .mono (.modify fun d hd => by simp [hd]) fun _ _ => hhad
    refine .bind hone fun _ hhad => ?_
    rw [List.append_cons types concrete (declared.map p.specialization.apply)]
    exact .mono (ih fun id' hid' => hneeds id' (List.mem_cons_of_mem _ hid')) fun _ hall =>
      List.forall_mem_cons.mpr ⟨hhad, hall⟩

theorem fills_declareSlots
    (hneeds : ∀ id ∈ p.slotTypes, Needs a (.function p.key) (.type id)) :
    Fills a had p.key (BodyWriter.declareSlots a p.method p.specialization) [] p.slotTypes fun _ =>
      ∀ id ∈ p.slotTypes, (a.type? id).isSome ∧ had (.type id) := by
  rw [BodyWriter.declareSlots_eq]
  exact fills_slots p.method.backedTypes hneeds

/-- A body is written only if the types of its slots are had and its operations are supplied. -/
theorem fills_body (hp : a.specialized? p.key = some p) (hnumbered : a.Numbered)
    (id returnType functionType : Id) (parameterTypes : List Id) :
    Fills a had p.key
      (BodyWriter.body a p.method p.specialization id returnType functionType parameterTypes) []
      p.slotTypes fun _ => (∀ id ∈ p.slotTypes, had (.type id)) ∧
        ∀ i ∈ p.method.code.instructions, ∃ op, i.decode = .ok op ∧ p.Supplied a had op := by
  have hneeds : ∀ id ∈ p.slotTypes, Needs a (.function p.key) (.type id) := fun id hid =>
    .type hp (List.mem_append_right _ hid)
  have hparameters : Fills a had p.key (BodyWriter.signature id returnType functionType parameterTypes) []
      [] fun _ => True := by
    refine .bind (.write _ _) fun _ _ => .mono (.mapM (P := fun _ _ => True) fun t _ => ?_)
      fun _ _ => trivial
    exact .bind .freshId fun i _ => .bind (.write _ _) fun _ _ => .pure trivial
  refine .bind hparameters fun parameters _ => .bind .freshId fun label _ => ?_
  refine .bind (.write _ _) fun _ _ => .bind (fills_declareSlots hneeds) fun _ htypes => ?_
  have hslots : ∀ id ∈ p.slotTypes, (a.type? id).isSome := fun id hid => (htypes id hid).1
  refine .get_bind fun d _ => ?_
  refine .bind (.forM (C := fun _ => True) fun pair _ => .write _ _) fun _ _ => ?_
  refine .bind (.forM fun i hi => fills_instruction hp hnumbered hslots hi) fun _ hcode => ?_
  exact .mono (.write _ _) fun _ _ => ⟨fun id hid => (htypes id hid).2, hcode⟩

/-- A function is made only if it is supplied. -/
theorem keeps_buildSpecialized (hp : a.specialized? p.key = some p) (hnumbered : a.Numbered) :
    Keeps a had (.function p.key)
      (Construct.buildSpecialized a p.method p.key p.specialization) fun _ =>
        Supplied a had (.function p.key) := by
  have hstage : 0 < (Key.function p.key).stage := Nat.succ_pos 2
  have hneeds : ∀ id ∈ p.types, Needs a (.function p.key) (.type id) := fun id hid => .type hp hid
  simp only [Specialized.types, List.forall_mem_append] at hneeds
  obtain ⟨⟨hreturn, hparameters⟩, -⟩ := hneeds
  have hreturned : Keeps a had (.function p.key) (Construct.returnType a p.returnType?) fun _ =>
      ∀ id ∈ p.returnType?.toList, had (.type id) := by
    cases hsome : p.returnType? with
    | none => exact .mono (keeps_shape hstage _) fun _ _ => nofun
    | some id =>
      rw [hsome] at hreturn
      refine .mono (keeps_type (hreturn id List.mem_cons_self)) fun _ hhad id' hid' => ?_
      obtain rfl := List.mem_singleton.mp hid'
      exact hhad.2
  refine .bind hreturned fun returnType hreturnType => ?_
  refine .bind (.mapM fun id hid => keeps_type (hparameters id hid)) fun ids hids => ?_
  have hparameterTypes : ∀ id ∈ p.key.parameters, had (.type id) := fun id hid => by
    obtain ⟨i, -, hi⟩ := forall₂_mem_left hids hid
    exact hi.2
  refine .bind (keeps_shape hstage _) fun functionType _ => .bind (.perform _) fun id _ => ?_
  refine .bind (fills_body hp hnumbered _ _ _ _ _ rfl) fun r hr => .pure ?_
  refine supplied_of_operations hp ?_ hr.2.2
  simp only [Specialized.types, List.forall_mem_append]
  exact ⟨⟨hreturnType, hparameterTypes⟩, hr.2.1⟩

theorem keeps_buildFunction (hnumbered : a.Numbered) (key : FunctionKey) :
    Keeps a had (.function key) ((recipes a).factory (.function key)) fun _ =>
      Supplied a had (.function key) := by
  refine .bind (.ofOption fun hnone => .inl ?_) fun m hm => ?_
  · rintro ⟨p, hp, -⟩
    rw [(Assembly.specialized?_eq_some.mp hp).2.1] at hnone
    obtain rfl := (Assembly.specialized?_eq_some.mp hp).1
    cases hnone
  split
  · next fault hbind =>
    refine .fail (.inl ?_)
    rintro ⟨p, hp, -⟩
    obtain ⟨-, hmethod, hspecialization⟩ := Assembly.specialized?_eq_some.mp hp
    obtain rfl := Option.some.inj (hm.symm.trans hmethod)
    rw [hbind] at hspecialization
    cases hspecialization
  · next s hbind =>
    have hp : a.specialized? key = some ⟨key, m, s⟩ :=
      Assembly.specialized?_eq_some.mpr ⟨rfl, hm, hbind⟩
    exact keeps_buildSpecialized (p := ⟨key, m, s⟩) hp hnumbered

/-! ## The laws -/

/-- What is made is supplied with what its construction has been given. -/
theorem keeps_factory (hnumbered : a.Numbered) (had : Key → Prop) (k : Key)
    (hknown : (regime a).known k) :
    Keeps a had k ((recipes a).factory k) fun _ => Supplied a had k := by
  cases k with
  | type id => exact keeps_buildType
  | «variable» field => exact keeps_buildGlobal hknown
  | function key => exact keeps_buildFunction hnumbered key
  | shape s => exact .mono (.perform _) fun _ _ => ⟨trivial, fun _ hneeds => nomatch hneeds⟩
  | constant type bits => exact .mono (.perform _) fun _ _ => ⟨trivial, fun _ hneeds => nomatch hneeds⟩

/-- Constructions of an assembly whose definitions are numbered keep to the regime. -/
theorem regime_lawful (hnumbered : a.Numbered) : (regime a).Lawful where
  known_of_asks k k' hasks := by
    cases k' with
    | «variable» field =>
      cases hasks with
      | needed _ hlisted => exact hlisted
      | leaf _ hleaf => simp [Key.stage] at hleaf
    | _ => trivial
  good_of_asks k k' hasks hgood := by
    cases hasks with
    | needed hneeds _ => exact hgood.needs hneeds
    | leaf _ hleaf => exact constructible_of_leaf hleaf
  not_good_of_wrong k hwrong := hwrong.not_constructible
  not_good_of_cycle k hcycle := not_constructible_of_cycle (cycle_of_asks hcycle)
  factory k hknown := .mono (keeps_factory hnumbered _ k hknown) fun _ hsupplied => hsupplied.constructible

end ShaderLowering
