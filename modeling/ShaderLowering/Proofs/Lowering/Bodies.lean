import ShaderLowering.Proofs.Lowering.Drafts

/-!
# Functions keep to the ledger

What the construction of a function writes, step by step, is the form of the function: each step
draws the lines that `Specialized.lines` has at its place, takes the ids that these lines define, and
fails only if the function is not constructible.
-/

namespace ShaderLowering

open Construction
open Spirv

variable {a : Assembly} {roots : Key → Prop} {p : Specialized} {h : History} {w w' w'' : Sheet}
  {α β : Type}

/-! ## Slots -/

/-- A slot of a draft is the slot of the method with a number. -/
structure IsSlot (a : Assembly) (p : Specialized) (ν : List Name) (number : Il.Slot)
    (s : LocalSlot) : Prop where
  has : p.HasSlot number
  type : p.slotTypes[number.toNat]? = some s.type
  pointer : Stands ν (p.pointer number.toNat) s.pointer
  valueType : Stands ν (.value (p.slotValue a number)) s.valueType

theorem IsSlot.later {number : Il.Slot} {s : LocalSlot} {h' : History}
    (hs : IsSlot a p (names h) number s) (hbefore : h <+: h') : IsSlot a p (names h') number s :=
  ⟨hs.has, hs.type, hs.pointer.later hbefore, hs.valueType.later hbefore⟩

/-- The slot with a number is had, if there is one. -/
theorem Draws.slot {m : MethodDef} {number : Il.Slot} (hslots : w.slots = p.slotTypes)
    (hbad : ¬p.HasSlot number → ¬Constructible a (.function p.key)) :
    Draws a roots p h (BodyWriter.slot m number) w w fun h' s =>
      IsSlot a p (names h') number s := by
  intro d hd
  have hget : (BodyWriter.slot m number).run d = (BodyWriter.ofOption
      (.unresolvedSlot m.fullName number) d.slots[number.toNat]?).run d := rfl
  rw [hget]
  refine .mono (Draws.ofOption (fun hnone => hbad fun hhas => ?_) d hd) ?_
  · rw [hd.slots, List.getElem?_mapIdx, hslots, List.getElem?_eq_getElem hhas] at hnone
    cases hnone
  · rintro h' ⟨s, d'⟩ hbefore ⟨hd', hs⟩
    refine ⟨hd', ?_⟩
    rw [hd.slots, List.getElem?_mapIdx] at hs
    obtain ⟨type, htype, rfl⟩ := Option.map_eq_some_iff.mp hs
    obtain ⟨hpointer, hvalue⟩ := hd.slots_known _ _ htype
    rw [hslots] at htype
    have hslotValue : p.slotValue a number = a.valueType type := by
      rw [Specialized.slotValue, htype]
      rfl
    have hslot : IsSlot a p (names h) number (p.slotAt a (names h) number.toNat type) :=
      ⟨(List.getElem?_eq_some_iff.mp htype).1, htype, ⟨hpointer, rfl⟩,
        ⟨hslotValue ▸ hvalue, by rw [hslotValue]; rfl⟩⟩
    exact hslot.later hbefore

/-- The value of a slot is loaded. -/
theorem Draws.loadSlot {m : MethodDef} {number : Il.Slot} (hslots : w.slots = p.slotTypes)
    (hbad : ¬p.HasSlot number → ¬Constructible a (.function p.key)) :
    Draws a roots p h (BodyWriter.loadSlot m number) w
      ((w.take 1).write [p.loadLine a number w.taken]) fun h' i =>
        p.HasSlot number ∧ Stands (names h') (p.own w.taken) i := by
  refine .bind (.slot hslots hbad) fun h₁ s _ hs => ?_
  refine .bind .freshId fun h₂ i hbefore hi => ?_
  have hs' := hs.later hbefore
  refine .bind (.write (p.loadLine a number w.taken) ?_ ?_) fun h₃ _ hbefore _ => .pure ?_
  · simp [Specialized.loadLine, Line.under, Operand.under, hi.2, hs'.pointer.2, hs'.valueType.2]
  · simp [-names_append, Specialized.loadLine, Line.names, Operand.name?, hi.1, hs'.pointer.1,
      hs'.valueType.1]
  · intro h₄ hquiet
    exact ⟨hs.has, (hi.later hbefore).later hquiet.prefix⟩

/-- A value is stored into a slot. -/
theorem Draws.storeSlot {m : MethodDef} {number : Il.Slot} {i : Id} {n : Name}
    (hslots : w.slots = p.slotTypes) (hi : Stands (names h) n i)
    (hbad : ¬p.HasSlot number → ¬Constructible a (.function p.key)) :
    Draws a roots p h (BodyWriter.storeSlot m number i) w (w.write [p.storeLine number n])
      fun _ _ => p.HasSlot number := by
  refine .bind (.slot hslots hbad) fun h₁ s hbefore hs => ?_
  have hi' := hi.later hbefore
  refine .mono (.write (p.storeLine number n) ?_ ?_) fun _ _ _ _ => hs.has
  · simp [Specialized.storeLine, Line.under, Operand.under, hi'.2, hs.pointer.2]
  · simp [-names_append, Specialized.storeLine, Line.names, Operand.name?, hi'.1, hs.pointer.1]

/-- The type that a call gives to a parameter is had. -/
theorem Draws.argumentType {m : MethodDef} {declared : TypeId} {argument : Il.Slot}
    (hslots : w.slots = p.slotTypes)
    (hbad : p.argumentType? a declared argument = none → ¬Constructible a (.function p.key)) :
    Draws a roots p h (BodyWriter.argumentType a m declared argument) w w fun _ t =>
      p.argumentType? a declared argument = some t := by
  refine .bind (.lift (.ofOption fun hnone => ?_) fun _ _ _ hv => hv) fun h₁ t _ ht => ?_
  · exact hbad (by rw [Specialized.argumentType?, hnone])
  have htype : p.argumentType? a declared argument =
      if t.isGeneric then p.slotTypes[argument.toNat]? else some declared := by
    rw [Specialized.argumentType?, ht]
  split
  · next hgeneric =>
    rw [htype, if_pos hgeneric] at hbad ⊢
    refine .bind (.slot hslots fun hno => hbad ?_) fun h₂ s _ hs => .pure fun _ _ => hs.type
    exact List.getElem?_eq_none (Nat.le_of_not_lt hno)
  · next hgeneric =>
    rw [htype, if_neg hgeneric]
    exact .pure fun _ _ => rfl

/-! ## Operations -/

/-- The sheet after an operation. -/
def Sheet.perform (a : Assembly) (p : Specialized) (w : Sheet) (op : Il.Operation) : Sheet where
  lines := w.lines ++ p.operationLines a w.taken op
  slots := w.slots
  callees := w.callees ++ p.called a op
  taken := w.taken + op.taken

section Operations

variable {m : MethodDef} (hp : a.specialized? p.key = some p)

include hp

/-- What is wrong with an operation is wrong with the function. -/
theorem not_constructible_of_not_refers {op : Il.Operation} (hop : p.Performs op)
    (hno : ¬p.Refers a op) : ¬Constructible a (.function p.key) :=
  fun hconstructible => hno (hconstructible.feasible hp hop).refers

/-- What is on a line of a function that is reached is mentioned. -/
theorem mentioned_of_mem {line : Line} {n : Name} (hreached : Reached a roots (.function p.key))
    (hline : line ∈ p.lines a) (hn : n ∈ line.names) : Mentioned a roots n := by
  have hmem : line ∈ a.lines p.key := by
    rw [Assembly.lines, hp]
    exact hline
  exact ⟨_, hreached, .function hmem hn⟩

/-- A global variable is had for an operation. -/
theorem Draws.global {op : Il.Operation} {wire : UInt64}
    (hreached : Reached a roots (.function p.key)) (hop : p.Performs op)
    (hwire : op.field? = some wire)
    (hbad : (EntityId.ofWire? wire : Option FieldId) = none → ¬Constructible a (.function p.key)) :
    Draws a roots p h (liftM (BodyWriter.global a wire)) w w fun h' v =>
      ∃ field, EntityId.ofWire? wire = some field ∧ IsGlobal a (names h') field v := by
  unfold BodyWriter.global
  cases hfield : (EntityId.ofWire? wire : Option FieldId) with
  | none => exact Draws.fail (hbad hfield)
  | some field =>
    have hneeds : Needs a (.function p.key) (.variable field) := .global hp hop hwire hfield
    refine .lift (.mono (.global (hreached.needs hneeds) hneeds fun hbad hconstructible =>
      hbad (hconstructible.needs hneeds)) fun h' v _ hv => ⟨hv.1, field, rfl, hv.2⟩) ?_
    rintro h' v l ⟨field', hfield', hv⟩
    exact ⟨field', hfield', hv.later (List.prefix_append h' l)⟩

/-- A constant is had for an operation, and stored. -/
theorem Draws.loadConstant {destination : Il.Slot} {bits : Word}
    (hreached : Reached a roots (.function p.key)) (hslots : w.slots = p.slotTypes)
    (hline : p.storeLine destination (.constant (p.slotValue a destination) bits) ∈ p.lines a)
    (hbad : ¬p.HasSlot destination → ¬Constructible a (.function p.key)) :
    Draws a roots p h (BodyWriter.loadConstant m destination bits) w
      (w.write [p.storeLine destination (.constant (p.slotValue a destination) bits)])
      fun _ _ => p.HasSlot destination := by
  refine .bind (.slot hslots hbad) fun h₁ s _ hs => ?_
  have hmentioned : Mentioned a roots (.constant (p.slotValue a destination) bits) :=
    mentioned_of_mem hp hreached hline (by simp [Specialized.storeLine, Line.names, Operand.name?])
  have hkey : (Name.constant (p.slotValue a destination) bits).key (names h₁) =
      .constant s.valueType bits := by
    rw [Name.key, ← hs.valueType.2]
  have hparts : ∀ n ∈ (Name.constant (p.slotValue a destination) bits).parts a,
      n ∈ names h₁ := by
    simpa [Name.parts] using hs.valueType.1
  exact .bind (.lift (.constant hkey hparts hmentioned trivial) fun h' i l hi =>
    hi.later (List.prefix_append h' l)) fun h₂ i _ hi => .storeSlot hslots hi hbad

/-- The method that a call names is had. -/
theorem Draws.target {result : Option Il.Slot} {wire : UInt64} {arguments : List Il.Slot}
    (hop : p.Performs (.call result wire arguments)) :
    Draws a roots p h (liftM (BodyWriter.callee a wire)) w w fun _ target =>
      Specialized.target? a wire = some target := by
  have hbad : Specialized.target? a wire = none → ¬Constructible a (.function p.key) := by
    intro hnone
    refine not_constructible_of_not_refers hp hop fun hrefers => ?_
    simp [Specialized.Refers, Specialized.calleeKey?, hnone] at hrefers
  unfold BodyWriter.callee
  cases hid : (EntityId.ofWire? wire : Option MethodId) with
  | none => exact Draws.fail (hbad (by rw [Specialized.target?, hid]; rfl))
  | some id =>
    have htarget : Specialized.target? a wire = a.method? id := by
      rw [Specialized.target?, hid]
      rfl
    rw [htarget] at hbad ⊢
    exact .lift (.ofOption hbad) fun _ _ _ hv => hv

/-- The types that a call gives to the parameters of the callee are had. -/
theorem Draws.argumentTypes {result : Option Il.Slot} {wire : UInt64} {arguments : List Il.Slot}
    {target : MethodDef} (hslots : w.slots = p.slotTypes)
    (hop : p.Performs (.call result wire arguments))
    (htarget : Specialized.target? a wire = some target)
    (hlength : arguments.length = target.effectiveParameters.length) :
    Draws a roots p h ((target.effectiveParameters.zip arguments).mapM fun pair =>
        BodyWriter.argumentType a m pair.1 pair.2) w w fun _ parameters =>
      p.calleeKey? a wire arguments = some ⟨target.id, parameters⟩ := by
  have hkey : p.calleeKey? a wire arguments =
      (p.argumentTypes? a target arguments).map fun parameters => ⟨target.id, parameters⟩ := by
    rw [Specialized.calleeKey?, htarget]
    exact if_pos hlength
  refine .mono (.mapM_option fun pair hpair h' _ => .argumentType hslots fun hnone => ?_)
    fun h' parameters _ hparameters => ?_
  -- The function refers to the callee only if each parameter of it has a type.
  · refine not_constructible_of_not_refers hp hop fun hrefers => ?_
    have hsome := hrefers.1
    rw [hkey, Option.isSome_map] at hsome
    obtain ⟨parameters, hparameters⟩ := Option.isSome_iff_exists.mp hsome
    obtain ⟨t, ht⟩ := exists_of_mapM hparameters hpair
    rw [hnone] at ht
    cases ht
  · rw [hkey, Specialized.argumentTypes?, hparameters]
    rfl

/-- The line of a call is written and its result stored. -/
theorem Draws.finishCall {result : Option Il.Slot} {wire : UInt64} {arguments : List Il.Slot}
    {callee : FunctionKey} {f : Function} {ids : List Id} (hslots : w.slots = p.slotTypes)
    (hop : p.Performs (.call result wire arguments))
    (hkey : p.calleeKey? a wire arguments = some callee) (hf : f.key = callee)
    (hlowered : Lowered a (names h) f)
    (hids : List.Forall₂ (fun n i => Stands (names h) (p.own n) i)
      (List.range' w.taken arguments.length) ids) :
    Draws a roots p h (do
        let value ← BodyWriter.freshId
        BodyWriter.write .functionCall
          (f.returnType.raw :: value.raw :: f.id.raw :: ids.map Id.raw)
        modify fun draft => { draft with callees := draft.callees ++ [f] }
        match result with
        | some number => BodyWriter.storeSlot m number value
        | none => Pure.pure ())
      ((w.take arguments.length).write (p.argumentLines a arguments w.taken))
      (w.perform a p (.call result wire arguments)) fun _ _ => ∀ slot ∈ result, p.HasSlot slot := by
  have hbad : ¬p.Refers a (.call result wire arguments) → ¬Constructible a (.function p.key) :=
    not_constructible_of_not_refers hp hop
  refine .bind .freshId fun h₁ value hbefore₁ hvalue => ?_
  have hlowered₁ := hlowered.later hbefore₁
  obtain ⟨hidKnown, hreturnKnown⟩ := hlowered₁.id_mem
  obtain ⟨hid, hreturn⟩ := hlowered₁.ids
  obtain ⟨rfl, hargumentsKnown⟩ := forall₂_map (hids.imp fun n i hi => hi.later hbefore₁)
  subst hf
  refine .bind (.write (p.callLine a f.key arguments.length w.taken) ?_ ?_)
    fun h₂ _ hbefore₂ _ => ?_
  · simp [Specialized.callLine, Line.under, Operand.under, hid, hreturn, hvalue.2]
  · simp only [Specialized.callLine, Line.names, List.filterMap_cons, Operand.name?,
      List.filterMap_map, List.mem_cons, List.mem_filterMap, Function.comp_apply]
    rintro n (rfl | rfl | rfl | ⟨number, hnumber, hn⟩)
    · exact hreturnKnown
    · exact hvalue.1
    · exact hidKnown
    · obtain rfl := Option.some.inj hn
      exact hargumentsKnown number hnumber
  refine .bind (.callee (hlowered₁.later hbefore₂)) fun h₃ _ hbefore₃ _ => ?_
  have hlines : p.operationLines a w.taken (.call result wire arguments) =
      p.callLines a w.taken result f.key arguments := by
    rw [Specialized.operationLines, hkey]
  have hcalled : p.called a (.call result wire arguments) = [f.key] := by
    rw [Specialized.called, hkey]
    rfl
  have hvalue₃ := (hvalue.later hbefore₂).later hbefore₃
  cases result with
  | none =>
    refine .of_eq ?_ (.pure fun _ _ slot hslot => by cases hslot)
    simp [Sheet.perform, Sheet.write, Sheet.take, hlines, hcalled, Specialized.callLines,
      Il.Operation.taken, Nat.add_assoc]
  | some number =>
    refine .mono (.of_eq ?_ (.storeSlot (by simpa using hslots) hvalue₃ fun hno => hbad ?_)) ?_
    · simp [Sheet.perform, Sheet.write, Sheet.take, hlines, hcalled, Specialized.callLines,
        Il.Operation.taken, Nat.add_assoc]
    · exact fun hrefers => hno (hrefers.2.2 number rfl)
    · rintro h₄ _ - hnumber slot hslot
      obtain rfl := Option.some.inj hslot
      exact hnumber

/-- A call. -/
theorem Draws.call {result : Option Il.Slot} {wire : UInt64} {arguments : List Il.Slot}
    (hreached : Reached a roots (.function p.key)) (hslots : w.slots = p.slotTypes)
    (hop : p.Performs (.call result wire arguments)) :
    Draws a roots p h (BodyWriter.call a m result wire arguments) w
      (w.perform a p (.call result wire arguments)) fun _ _ =>
        p.Feasible a (.call result wire arguments) := by
  have hbad : ¬p.Refers a (.call result wire arguments) → ¬Constructible a (.function p.key) :=
    not_constructible_of_not_refers hp hop
  refine .bind (.target hp hop) fun h₁ target _ htarget => ?_
  -- The number of arguments is looked at before anything is asked for.
  by_cases hlength : arguments.length = target.effectiveParameters.length
  case neg =>
    dsimp only
    rw [if_pos hlength]
    refine .fail_bind (hbad fun hrefers => ?_)
    have hsome := hrefers.1
    simp [Specialized.calleeKey?, htarget, hlength] at hsome
  dsimp only
  rw [if_neg (not_not_intro hlength)]
  refine .bind (.argumentTypes hp hslots hop htarget hlength) fun h₂ parameters _ hkey => ?_
  have hneeds : Needs a (.function p.key) (.function ⟨target.id, parameters⟩) := .callee hp hop hkey
  refine .bind (.lift (.function (hreached.needs hneeds) hneeds fun hbad hconstructible =>
    hbad (hconstructible.needs hneeds)) fun h' f l hf => ⟨hf.1, hf.2.later (List.prefix_append h' l)⟩)
    fun h₃ f _ hgot => ?_
  obtain ⟨hf, hlowered⟩ := hgot
  refine .bind (.mapM_lines (p.loadLine a) fun slot hslot h' w' _ hw' _ =>
    .loadSlot (hw'.trans hslots) fun hno => hbad fun hrefers => hno (hrefers.2.1 slot hslot))
    fun h₄ ids hbefore₄ hloaded => ?_
  obtain ⟨hhas, hids⟩ := hloaded
  refine .mono (.finishCall hp hslots hop hkey hf (hlowered.later hbefore₄) hids)
    fun h₅ _ _ hresult => ⟨⟨?_, hhas, hresult⟩, fun wire' field hwire => ?_, fun key hcalled => ?_⟩
  · rw [hkey]
    rfl
  · cases hwire
  · obtain rfl : key = ⟨target.id, parameters⟩ := by
      simpa [Specialized.called, hkey] using hcalled
    rw [← hf]
    exact hlowered.constructible

/-- One operation. -/
theorem Draws.operation {op : Il.Operation} (hreached : Reached a roots (.function p.key))
    (hslots : w.slots = p.slotTypes) (hop : p.Performs op) :
    Draws a roots p h (BodyWriter.operation a m op) w (w.perform a p op) fun _ _ =>
      p.Feasible a op := by
  -- In each case the lines of the operation are written in order; whatever is missing makes it not feasible.
  have hbad : ¬p.Refers a op → ¬Constructible a (.function p.key) :=
    not_constructible_of_not_refers hp hop
  obtain ⟨number, hlines⟩ := p.mem_lines a hop
  cases op with
  | call result wire arguments => exact .call hp hreached hslots hop
  | ret =>
    refine .mono (.of_eq ?_ (.write ⟨.ret, []⟩ rfl fun n hn => by cases hn)) fun _ _ _ _ =>
      .of_refers trivial rfl rfl
    simp [Sheet.perform, Sheet.write, Specialized.operationLines, Specialized.called,
      Il.Operation.taken]
  | returnValue value =>
    cases value with
    | none => exact .fail (hbad fun hrefers => by obtain ⟨slot, hslot, -⟩ := hrefers; cases hslot)
    | some slot =>
      refine .bind (.loadSlot hslots fun hno => hbad ?_) fun h₁ i _ hloaded => ?_
      · rintro ⟨slot', hslot, hhas⟩
        obtain rfl := Option.some.inj hslot
        exact hno hhas
      obtain ⟨hhas, hi⟩ := hloaded
      refine .mono (.of_eq ?_ (.write ⟨.returnValue, [.name (p.own w.taken)]⟩ ?_ ?_))
        fun _ _ _ _ => .of_refers ⟨slot, rfl, hhas⟩ rfl rfl
      · simp [Sheet.perform, Sheet.write, Sheet.take, Specialized.operationLines,
          Specialized.called, Il.Operation.taken]
      · simp [Line.under, Operand.under, hi.2]
      · simpa [-names_append, Line.names, Operand.name?] using hi.1
  | load destination source =>
    refine .bind (.loadSlot hslots fun hno => hbad fun hrefers => hno hrefers.2)
      fun h₁ i _ hloaded => ?_
    obtain ⟨hsource, hi⟩ := hloaded
    refine .mono (.of_eq ?_ (.storeSlot (by simpa using hslots) hi fun hno => hbad fun hrefers =>
      hno hrefers.1)) fun _ _ _ hdestination => .of_refers ⟨hdestination, hsource⟩ rfl rfl
    simp [Sheet.perform, Sheet.write, Sheet.take, Specialized.operationLines, Specialized.called,
      Il.Operation.taken]
  | loadField destination wire =>
    refine .bind (.global hp hreached hop rfl fun hnone => hbad fun hrefers => ?_)
      fun h₁ v _ hglobal => ?_
    · simp [Specialized.Refers, hnone] at hrefers
    obtain ⟨field, hfield, hv⟩ := hglobal
    refine .bind .freshId fun h₂ i hbefore₂ hi => ?_
    have hv₂ := hv.later hbefore₂
    refine .bind (.write ⟨.load, [.name (.value (Specialized.globalType a wire)),
      .name (p.own w.taken), .name (p.globalName wire)]⟩ ?_ ?_) fun h₃ _ hbefore₃ _ => ?_
    · simp [Line.under, Operand.under, Specialized.globalType, Specialized.globalName, hfield,
        hi.2, hv₂.eq, Assembly.globalVariable]
    · simpa [-names_append, Line.names, Operand.name?, Specialized.globalType,
        Specialized.globalName, hfield] using ⟨hv₂.type_mem, hi.1, hv₂.variable_mem⟩
    refine .mono (.of_eq ?_ (.storeSlot (by simpa using hslots) (hi.later hbefore₃) fun hno =>
      hbad fun hrefers => hno hrefers.2)) fun _ _ _ hhas =>
        .of_field ⟨by rw [hfield]; rfl, hhas⟩ rfl hfield hv.constructible rfl
    simp [Sheet.perform, Sheet.write, Sheet.take, Specialized.operationLines, Specialized.called,
      Il.Operation.taken]
  | storeField wire source =>
    refine .bind (.global hp hreached hop rfl fun hnone => hbad fun hrefers => ?_)
      fun h₁ v _ hglobal => ?_
    · simp [Specialized.Refers, hnone] at hrefers
    obtain ⟨field, hfield, hv⟩ := hglobal
    refine .bind (.loadSlot hslots fun hno => hbad fun hrefers => hno hrefers.2)
      fun h₂ i hbefore₂ hloaded => ?_
    obtain ⟨hhas, hi⟩ := hloaded
    have hv₂ := hv.later hbefore₂
    refine .mono (.of_eq ?_ (.write ⟨.store, [.name (p.globalName wire), .name (p.own w.taken)]⟩
      ?_ ?_)) fun _ _ _ _ =>
        .of_field ⟨by rw [hfield]; rfl, hhas⟩ rfl hfield hv.constructible rfl
    · simp [Sheet.perform, Sheet.write, Sheet.take, Specialized.operationLines,
        Specialized.called, Il.Operation.taken]
    · simp [Line.under, Operand.under, Specialized.globalName, hfield, hi.2, hv₂.eq,
        Assembly.globalVariable]
    · simpa [-names_append, Line.names, Operand.name?, Specialized.globalName, hfield]
        using ⟨hv₂.variable_mem, hi.1⟩
  | loadUInt32 destination bits =>
    refine .mono (.of_eq ?_ (.loadConstant hp hreached hslots
      (hlines _ (by simp [Specialized.operationLines])) hbad)) fun _ _ _ hhas =>
        .of_refers hhas rfl rfl
    simp [Sheet.perform, Sheet.write, Specialized.operationLines, Specialized.called,
      Il.Operation.taken]
  | loadFloat32 destination bits =>
    refine .mono (.of_eq ?_ (.loadConstant hp hreached hslots
      (hlines _ (by simp [Specialized.operationLines])) hbad)) fun _ _ _ hhas =>
        .of_refers hhas rfl rfl
    simp [Sheet.perform, Sheet.write, Specialized.operationLines, Specialized.called,
      Il.Operation.taken]

end Operations

/-! ## Code -/

namespace Sheet

/-- The sheet after an instruction. -/
def instruct (a : Assembly) (p : Specialized) (w : Sheet) (i : Il.Instruction) : Sheet :=
  match i.decode with
  | .ok op => w.perform a p op
  | .error _ => w

theorem slots_instruct (a : Assembly) (p : Specialized) (w : Sheet) (i : Il.Instruction) :
    (w.instruct a p i).slots = w.slots := by
  unfold instruct
  split <;> rfl

/-- What instructions leave on a sheet. -/
theorem foldl_instruct (a : Assembly) (p : Specialized) (code : List Il.Instruction) (w : Sheet) :
    (code.foldl (instruct a p) w).lines = w.lines ++ p.codeLines a w.taken code ∧
      (code.foldl (instruct a p) w).slots = w.slots ∧
      (code.foldl (instruct a p) w).callees = w.callees ++ p.calledBy a code ∧
      (code.foldl (instruct a p) w).taken = w.taken + Il.taken code := by
  induction code generalizing w with
  | nil => simp [Specialized.codeLines, Specialized.calledBy, Il.taken]
  | cons i rest ih =>
    obtain ⟨hlines, hslots, hcallees, htaken⟩ := ih (w.instruct a p i)
    rw [List.foldl_cons, hlines, hslots, hcallees, htaken, slots_instruct, Specialized.codeLines,
      Specialized.calledBy, Il.taken]
    cases hdecode : i.decode with
    | ok op => simp [instruct, hdecode, perform, Nat.add_assoc]
    | error cause => simp [instruct, hdecode]

end Sheet

section Code

variable {m : MethodDef} (hp : a.specialized? p.key = some p)

include hp

/-- One instruction. -/
theorem Draws.instruction {i : Il.Instruction} (hreached : Reached a roots (.function p.key))
    (hslots : w.slots = p.slotTypes) (hi : i ∈ p.method.code.instructions) :
    Draws a roots p h (BodyWriter.instruction a m i) w (w.instruct a p i) fun _ _ =>
      ∃ op, i.decode = .ok op ∧ p.Feasible a op := by
  unfold BodyWriter.instruction
  cases hdecode : i.decode with
  | error cause =>
    refine .fail fun hconstructible => ?_
    obtain ⟨op, hop, -⟩ := hconstructible.operation hp hi
    rw [hdecode] at hop
    cases hop
  | ok op =>
    refine .mono (.of_eq ?_ (.operation hp hreached hslots ⟨i, hi, hdecode⟩)) fun _ _ _ hop =>
      ⟨op, rfl, hop⟩
    simp [Sheet.instruct, hdecode]

/-- The code of the method. -/
theorem Draws.code (hreached : Reached a roots (.function p.key)) (hslots : w.slots = p.slotTypes) :
    Draws a roots p h (p.method.code.instructions.forM (BodyWriter.instruction a m)) w
      (p.method.code.instructions.foldl (Sheet.instruct a p) w) fun _ _ =>
        ∀ i ∈ p.method.code.instructions, ∃ op, i.decode = .ok op ∧ p.Feasible a op :=
  .forM (I := fun w' => w'.slots = p.slotTypes) hslots
    (fun w' i hw' => (w'.slots_instruct a p i).trans hw')
    fun _ hi _ _ _ hw' => .instruction hp hreached hw' hi

end Code

end ShaderLowering
