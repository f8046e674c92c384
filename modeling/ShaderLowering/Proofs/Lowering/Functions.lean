import ShaderLowering.Proofs.Lowering.Bodies
import ShaderLowering.Proofs.Lowering.Factories

/-!
# Lowering keeps to the ledger

The construction of a whole function draws all of its lines, in their order; so every factory does
what the ledger asks of it, and the ledger is lawful (`ledger_lawful`).  What follows for machines is
in `Governed.follow`: whatever the schedule, all that is ready is right.
-/

namespace ShaderLowering

open Construction
open Spirv

variable {a : Assembly} {roots : Key → Prop} {p : Specialized} {h : History} {w w' w'' : Sheet}

/-! ## Signatures -/

theorem Specialized.parameterLines_eq (a : Assembly) (p : Specialized) (ids : List TypeId) :
    p.parameterLines a ids 0 =
      (ids.zipIdx 1).map fun pair => p.parameterLine a pair.1 (pair.2 - 1) := by
  refine List.ext_getElem (by simp [parameterLines]) fun i _ _ => ?_
  simp [parameterLines]

/-- The line that begins a function, and those of its parameters. -/
theorem Draws.signature {id returnType functionType : Id} {parameterTypes : List Id}
    (hid : Stands (names h) (p.own 0) id)
    (hreturn : Stands (names h) (.value (p.returnValue a)) returnType)
    (hfunction : Stands (names h) (p.signature a) functionType)
    (hknown : ∀ t ∈ p.key.parameters, .value (a.valueType t) ∈ names h)
    (hparameters : parameterTypes =
      p.key.parameters.map fun t => ident (names h) (.value (a.valueType t)))
    (htaken : w.taken = 1) :
    Draws a roots p h (BodyWriter.signature id returnType functionType parameterTypes) w
      ((w.take p.key.parameters.length).write
        (p.functionLine a :: p.parameterLines a p.key.parameters 0)) fun h' ids =>
      List.Forall₂ (fun n i => Stands (names h') (p.own n) i)
        (List.range' 1 p.key.parameters.length) ids := by
  refine .bind (.write (p.functionLine a) ?_ ?_) fun h₁ _ hbefore₁ _ => ?_
  · simp [Specialized.functionLine, Line.under, Operand.under, hid.2, hreturn.2, hfunction.2]
  · simp [-names_append, Specialized.functionLine, Line.names, Operand.name?, hid.1, hreturn.1,
      hfunction.1]
  rw [hparameters, List.mapM_map]
  refine .of_eq ?_ (.mono (.mapM_lines (C := fun _ => True)
    (fun t number => p.parameterLine a t (number - 1)) fun t ht h' w' hbefore' _ hle => ?_)
    fun h' ids _ hids => by simpa [htaken] using hids.2)
  · simp [Sheet.write, Sheet.take, htaken, Specialized.parameterLines_eq]
  -- A parameter takes the id after the one before it, and the first the one after the function.
  · have hincoming : p.incoming (w'.taken - 1) = p.own w'.taken := by
      have hpositive : 1 ≤ w'.taken := by simpa [htaken] using hle
      rw [Specialized.incoming, Nat.add_sub_cancel' hpositive]
    have htype : Stands (names h) (.value (a.valueType t)) _ := ⟨hknown t ht, rfl⟩
    refine .bind .freshId fun h₂ i hbefore₂ hi => ?_
    have htype₂ := htype.later ((hbefore₁.trans hbefore').trans hbefore₂)
    refine .bind (.write (p.parameterLine a t (w'.taken - 1)) ?_ ?_) fun h₃ _ hbefore₃ _ =>
      .pure fun h₄ hquiet => ⟨trivial, (hi.later hbefore₃).later hquiet.prefix⟩
    · simp [Specialized.parameterLine, hincoming, Line.under, Operand.under, hi.2, htype₂.2]
    · simp [-names_append, Specialized.parameterLine, hincoming, Line.names, Operand.name?, hi.1,
        htype₂.1]

/-! ## Heads and arrivals -/

/-- What is known of a function before its lines are written. -/
structure Heading (a : Assembly) (p : Specialized) (ν : List Name) (id returnType functionType : Id)
    (parameterTypes : List Id) : Prop where
  id : Stands ν (p.own 0) id
  returnType : Stands ν (.value (p.returnValue a)) returnType
  functionType : Stands ν (p.signature a) functionType
  known : ∀ t ∈ p.key.parameters, .value (a.valueType t) ∈ ν
  parameterTypes : parameterTypes =
    p.key.parameters.map fun t => ident ν (.value (a.valueType t))

/-- The head of a function is written. -/
theorem Draws.head {id returnType functionType : Id} {parameterTypes : List Id}
    (hheading : Heading a p (names h) id returnType functionType parameterTypes) :
    Draws a roots p h (do
        let parameters ← BodyWriter.signature id returnType functionType parameterTypes
        let label ← BodyWriter.freshId
        BodyWriter.write .label [label.raw]
        Pure.pure parameters) ⟨[], [], [], 1⟩
      ⟨p.headLines a, [], [], 2 + p.key.parameters.length⟩ fun h' ids =>
        List.Forall₂ (fun n i => Stands (names h') (p.own n) i)
          (List.range' 1 p.key.parameters.length) ids := by
  refine .bind (.signature hheading.id hheading.returnType hheading.functionType hheading.known
    hheading.parameterTypes rfl) fun h₁ ids _ hids => ?_
  refine .bind .freshId fun h₂ label hbefore₂ hlabel => ?_
  refine .bind (.write p.labelLine ?_ ?_) fun h₃ _ hbefore₃ _ => ?_
  · simp [Specialized.labelLine, Line.under, Operand.under, hlabel.2, Specialized.label]
  · simpa [-names_append, Specialized.labelLine, Line.names, Operand.name?, Specialized.label]
      using hlabel.1
  refine .of_eq ?_ (.pure fun h₄ hquiet => hids.imp fun n i hi =>
    ((hi.later hbefore₂).later hbefore₃).later hquiet.prefix)
  simp [Sheet.write, Sheet.take, Specialized.headLines]
  omega

/-- The incoming parameters are stored into the first slots. -/
theorem Draws.arrivals {slots : List LocalSlot} {ids : List Id} (position : Nat)
    (hslots : ∀ i s, slots[i]? = some s → Stands (names h) (p.pointer (position + i)) s.pointer)
    (hids : ∀ i id, ids[i]? = some id → Stands (names h) (p.incoming (position + i)) id) :
    Draws a roots p h ((slots.zip ids).forM fun pair =>
        BodyWriter.write .store [pair.1.pointer.raw, pair.2.raw]) w
      (w.write ((List.range' position (min slots.length ids.length)).map p.arrivalLine))
      fun _ _ => True := by
  induction slots generalizing h w ids position with
  | nil => exact .of_eq (by simp [Sheet.write]) (.pure fun _ _ => trivial)
  | cons s slots ih =>
    cases ids with
    | nil => exact .of_eq (by simp [Sheet.write]) (.pure fun _ _ => trivial)
    | cons id ids =>
      have hs : Stands (names h) (p.pointer position) s.pointer := hslots 0 s rfl
      have hid : Stands (names h) (p.incoming position) id := hids 0 id rfl
      refine .bind (.write (p.arrivalLine position) ?_ ?_) fun h₁ _ hbefore _ => ?_
      · simp [Specialized.arrivalLine, Line.under, Operand.under, hs.2, hid.2]
      · simpa [Specialized.arrivalLine, Line.names, Operand.name?] using ⟨hs.1, hid.1⟩
      refine .of_eq ?_ (ih (position + 1) (fun i s' hs' => ?_) fun i id' hid' => ?_)
      · simp [Sheet.write, List.range'_succ]
      · rw [Nat.add_assoc, Nat.add_comm 1 i]
        exact (hslots (i + 1) s' hs').later hbefore
      · rw [Nat.add_assoc, Nat.add_comm 1 i]
        exact (hids (i + 1) id' hid').later hbefore

/-! ## Slots -/

/-- The sheet after a slot has been declared. -/
def Sheet.slot (a : Assembly) (p : Specialized) (w : Sheet) (type : TypeId) : Sheet where
  lines := w.lines ++ [p.slotLine a type w.slots.length]
  slots := w.slots ++ [type]
  callees := w.callees
  taken := w.taken + 1

theorem Sheet.foldl_slot (a : Assembly) (p : Specialized) (types : List TypeId) (w : Sheet) :
    types.foldl (Sheet.slot a p) w =
      { w with
        lines := w.lines ++ p.slotLines a types w.slots.length
        slots := w.slots ++ types
        taken := w.taken + types.length } := by
  induction types generalizing w with
  | nil => simp [Specialized.slotLines]
  | cons type rest ih =>
    rw [List.foldl_cons, ih]
    simp [slot, Specialized.slotLines]
    omega

/-- The sheet before the operations. -/
def Sheet.entered (a : Assembly) (p : Specialized) : Sheet where
  lines := p.headLines a ++ p.slotLines a p.slotTypes 0 ++ p.arrivalLines
  slots := p.slotTypes
  callees := []
  taken := p.reserved

section Function

variable (hp : a.specialized? p.key = some p)

include hp

/-- The type of a slot is mentioned together with its storage. -/
theorem mentioned_of_slot {type : TypeId} (hreached : Reached a roots (.function p.key))
    (htype : type ∈ p.slotTypes) : Mentioned a roots (.pointer .function (a.valueType type)) := by
  obtain ⟨position, hposition⟩ := List.mem_iff_getElem?.mp htype
  exact mentioned_of_mem hp hreached (Specialized.slotLine_mem a hposition)
    (by simp [Specialized.slotLine, Line.names, Operand.name?])

/-- A slot is declared. -/
theorem Draws.declareSlot {type : TypeId} (hreached : Reached a roots (.function p.key))
    (htype : type ∈ p.slotTypes)
    (htaken : w.taken = 2 + p.key.parameters.length + w.slots.length) :
    Draws a roots p h (BodyWriter.declareSlot a type) w (w.slot a p type) fun _ _ =>
      Constructible a (.type type) := by
  have hneeds : Needs a (.function p.key) (.type type) :=
    .type hp (by simp [Specialized.types, htype])
  -- The pointer is the next id of the function, after its own, the parameters and the earlier slots.
  have hown : p.own w.taken = p.pointer w.slots.length := by rw [Specialized.pointer, htaken]
  refine .bind (.lift (.type (hreached.needs hneeds) hneeds fun hbad hconstructible =>
    hbad (hconstructible.needs hneeds)) fun h' i l hi => ⟨hi.1, hi.2.later (List.prefix_append h' l)⟩)
    fun h₁ i _ ⟨hconstructible, hi⟩ => ?_
  refine .bind (.lift (.shape (n := .pointer .function (a.valueType type)) (by rw [Name.key, hi.2])
    (by simpa [Name.parts] using hi.1) (mentioned_of_slot hp hreached htype) trivial)
    fun h' j l hj => hj.later (List.prefix_append h' l)) fun h₂ j hbefore₂ hj => ?_
  refine .bind .freshId fun h₃ pointer hbefore₃ hpointer => ?_
  rw [hown] at hpointer
  have hj₃ := hj.later hbefore₃
  refine .bind (.write (p.slotLine a type w.slots.length) ?_ ?_) fun h₄ _ hbefore₄ _ => ?_
  · simp [Specialized.slotLine, Line.under, Operand.under, hpointer.2, hj₃.2]
  · simp [-names_append, Specialized.slotLine, Line.names, Operand.name?, hpointer.1, hj₃.1]
  have hpointer₄ := hpointer.later hbefore₄
  have hi₄ := hi.later ((hbefore₂.trans hbefore₃).trans hbefore₄)
  refine .mono (.of_eq ?_ (.addSlot type ?_ hpointer₄.1 hi₄.1)) fun _ _ _ _ =>
    hconstructible
  · simp [Sheet.slot, Sheet.write, Sheet.take]
  · rw [Specialized.slotAt, ← hi₄.2]
    simpa using hpointer₄.2

/-- The slots are declared, in order. -/
theorem Draws.declareSlots (hreached : Reached a roots (.function p.key))
    (htaken : w.taken = 2 + p.key.parameters.length + w.slots.length) :
    Draws a roots p h (p.slotTypes.forM (BodyWriter.declareSlot a)) w
      { w with
        lines := w.lines ++ p.slotLines a p.slotTypes w.slots.length
        slots := w.slots ++ p.slotTypes
        taken := w.taken + p.slotTypes.length } fun _ _ =>
      ∀ type ∈ p.slotTypes, Constructible a (.type type) := by
  rw [← Sheet.foldl_slot]
  refine .forM (I := fun w' => w'.taken = 2 + p.key.parameters.length + w'.slots.length) htaken
    (fun w' type hw' => ?_) fun type htype _ _ _ hw' => .declareSlot hp hreached htype hw'
  simp only [Sheet.slot, List.length_append, List.length_singleton]
  omega

/-- The slots are declared and the incoming parameters stored into them. -/
theorem Draws.entry {ids : List Id} (hreached : Reached a roots (.function p.key))
    (hids : List.Forall₂ (fun n i => Stands (names h) (p.own n) i)
      (List.range' 1 p.key.parameters.length) ids) :
    Draws a roots p h (do
        p.slotTypes.forM (BodyWriter.declareSlot a)
        let draft ← get
        (draft.slots.zip ids).forM fun pair =>
          BodyWriter.write .store [pair.1.pointer.raw, pair.2.raw])
      ⟨p.headLines a, [], [], 2 + p.key.parameters.length⟩ (Sheet.entered a p) fun _ _ =>
        ∀ type ∈ p.slotTypes, Constructible a (.type type) := by
  refine .bind (.declareSlots hp hreached (by simp)) fun h₂ _ hbefore₂ htypes => ?_
  refine .get_bind fun d hd => ?_
  obtain ⟨rfl, hincoming⟩ := forall₂_map (hids.imp fun n i hi => hi.later hbefore₂)
  refine .mono (.of_eq ?_ (.arrivals 0 ?_ ?_)) fun h₃ _ _ _ => htypes
  · simp [Sheet.entered, Sheet.write, Specialized.arrivalLines, Specialized.reserved, hd.slots,
      List.range_eq_range']
  · intro i s hs
    rw [hd.slots, List.getElem?_mapIdx] at hs
    obtain ⟨type, htype, rfl⟩ := Option.map_eq_some_iff.mp hs
    rw [Nat.zero_add]
    exact ⟨(hd.slots_known i type htype).1, rfl⟩
  · intro i id hid
    rw [List.getElem?_map] at hid
    obtain ⟨n, hn, rfl⟩ := Option.map_eq_some_iff.mp hid
    have hmem := hincoming n (List.mem_of_getElem? hn)
    obtain ⟨_, rfl⟩ := List.getElem?_eq_some_iff.mp hn
    rw [List.getElem_range', Nat.one_mul] at hmem ⊢
    rw [Nat.zero_add]
    exact ⟨hmem, rfl⟩

omit hp in
/-- A whole function is a head, an entry, code and an end. -/
theorem body_eq (id returnType functionType : Id) (parameterTypes : List Id) :
    BodyWriter.body a p.method p.specialization id returnType functionType parameterTypes =
      ((do
        let parameters ← BodyWriter.signature id returnType functionType parameterTypes
        let label ← BodyWriter.freshId
        BodyWriter.write .label [label.raw]
        pure parameters) >>= fun parameters => (do
          p.slotTypes.forM (BodyWriter.declareSlot a)
          let draft ← get
          (draft.slots.zip parameters).forM fun pair =>
            BodyWriter.write .store [pair.1.pointer.raw, pair.2.raw]) >>= fun _ => do
        p.method.code.instructions.forM (BodyWriter.instruction a p.method)
        BodyWriter.write .functionEnd []) := by
  -- No slot is without a type, so the loop over positions is one over types.
  have hslots : BodyWriter.declareSlots a p.method p.specialization =
      p.slotTypes.forM (BodyWriter.declareSlot a) :=
    (BodyWriter.declareSlots_eq a p.method p.specialization).trans List.forM_map.symm
  rw [BodyWriter.body, hslots]
  simp only [bind_assoc, pure_bind]

/-- A whole function is written, line by line. -/
theorem Draws.body {id returnType functionType : Id} {parameterTypes : List Id}
    (hreached : Reached a roots (.function p.key))
    (hheading : Heading a p (names h) id returnType functionType parameterTypes) :
    Draws a roots p h (BodyWriter.body a p.method p.specialization id returnType functionType
        parameterTypes) ⟨[], [], [], 1⟩
      ⟨p.lines a, p.slotTypes, p.calledBy a p.method.code.instructions, p.taken⟩ fun _ _ =>
        (∀ type ∈ p.slotTypes, Constructible a (.type type)) ∧
          ∀ i ∈ p.method.code.instructions, ∃ op, i.decode = .ok op ∧ p.Feasible a op := by
  obtain ⟨hlines, hslots, hcallees, htaken⟩ :=
    (Sheet.entered a p).foldl_instruct a p p.method.code.instructions
  rw [body_eq]
  refine .bind (.head hheading) fun h₁ ids _ hids => ?_
  refine .bind (.entry hp hreached hids) fun h₂ _ _ htypes => ?_
  refine .bind (.code hp hreached rfl) fun h₃ _ _ hcode => ?_
  refine .mono (.of_eq ?_ (.write ⟨.functionEnd, []⟩ rfl nofun)) fun _ _ _ _ => ⟨htypes, hcode⟩
  ext1
  · simp only [Sheet.write, hlines]
    rfl
  · exact hslots
  · simpa [Sheet.write, Sheet.entered] using hcallees
  · exact htaken

/-- The type of what the function returns is had. -/
theorem makes_returnType (hreached : Reached a roots (.function p.key)) :
    Makes a roots (.construct (.function p.key)) (¬Constructible a (.function p.key)) h
      (Construct.returnType a (p.method.returnType.map p.specialization.apply)) fun h' i =>
        Quiet (.construct (.function p.key)) h h' ∧ Stands (names h') (.value (p.returnValue a)) i ∧
          ∀ id ∈ p.returnType?, Constructible a (.type id) := by
  change Makes a roots _ _ h (Construct.returnType a p.returnType?) _
  cases hreturn : p.returnType? with
  | none =>
    have hvalue : p.returnValue a = .void := by rw [Specialized.returnValue, hreturn]
    rw [hvalue]
    refine .mono (.shape (n := .value .void) rfl nofun ?_ trivial) fun h' i _ hi =>
      ⟨hi.1, hi.2, nofun⟩
    refine mentioned_of_mem hp hreached (p.functionLine_mem a) ?_
    simp [Specialized.functionLine, Line.names, Operand.name?, hvalue]
  | some id =>
    have hvalue : p.returnValue a = a.valueType id := by rw [Specialized.returnValue, hreturn]
    have hneeds : Needs a (.function p.key) (.type id) :=
      .type hp (by simp [Specialized.types, hreturn])
    rw [hvalue]
    refine .mono (.type (hreached.needs hneeds) hneeds fun hbad hconstructible =>
      hbad (hconstructible.needs hneeds)) fun h' i _ hi => ⟨hi.1, hi.2.2, fun id' hid' => ?_⟩
    obtain rfl := Option.some.inj hid'
    exact hi.2.1

/-- The function of a method under a specialization. -/
theorem makes_specialized (hreached : Reached a roots (.function p.key))
    (hnew : notes h (.function p.key) = []) :
    Makes a roots (.construct (.function p.key)) (¬Constructible a (.function p.key)) h
      (Construct.buildSpecialized a p.method p.key p.specialization) fun h' f =>
        Holds a h' (.function p.key) f := by
  -- The return type and the types of the parameters are needed, so a cycle is theirs as well.
  refine .bind (makes_returnType hp hreached) fun h₁ returnType _ hreturns => ?_
  obtain ⟨hquiet₁, hreturn, hreturned⟩ := hreturns
  have hneeds : ∀ id ∈ p.key.parameters, Needs a (.function p.key) (.type id) := fun id hid =>
    .type hp (by simp [Specialized.types, hid])
  refine .bind (.types (fun id => id) (fun id hid => hreached.needs (hneeds id hid)) hneeds
    fun id hid hbad hconstructible => hbad (hconstructible.needs (hneeds id hid)))
    fun h₂ parameterTypes hbefore₂ htyped => ?_
  obtain ⟨hquiet₂, hparameters, hall⟩ := htyped
  have hreturn₂ := hreturn.later hbefore₂
  have hsignature : Mentioned a roots (p.signature a) :=
    mentioned_of_mem hp hreached (p.functionLine_mem a)
      (by simp [Specialized.functionLine, Line.names, Operand.name?])
  have hparts : ∀ n ∈ (p.signature a).parts a, n ∈ names h₂ := by
    simp only [Specialized.signature, Name.parts, List.map_map, List.mem_cons, List.mem_map,
      Function.comp_apply]
    rintro n (rfl | ⟨id, hid, rfl⟩)
    · exact hreturn₂.1
    · exact (hall id hid).2
  have hkey : (p.signature a).key (names h₂) = .shape (.function returnType parameterTypes) := by
    rw [Specialized.signature, Name.key, hparameters, hreturn₂.2, List.map_map]
    rfl
  refine .bind (.shape hkey hparts hsignature trivial)
    fun h₃ functionType hbefore₃ hshaped => ?_
  obtain ⟨hquiet₃, hfunction⟩ := hshaped
  -- Nothing of the function itself has been noted so far, so its first id is taken now.
  have hunnoted : notes h₃ (.function p.key) = [] := by
    rw [hquiet₃.notes, hquiet₂.notes, hquiet₁.notes, hnew]
  have hfirst : .issue (.own p.key 0) ∉ notes h₃ (.function p.key) := by simp [hunnoted]
  refine .bind (.freshId hfirst) fun h₄ id hbefore₄ hissued => ?_
  obtain ⟨hid, hnotes⟩ := hissued
  have hlater : h₂ <+: h₄ := hbefore₃.trans hbefore₄
  have hheading : Heading a p (names h₄) id returnType functionType parameterTypes := by
    obtain ⟨l, rfl⟩ := hlater
    refine ⟨hid, hreturn₂.later ⟨l, rfl⟩, hfunction.later hbefore₄, fun t ht => ?_, ?_⟩
    · simp [(hall t ht).2]
    · rw [hparameters, names_append]
      exact List.map_congr_left fun t ht => (ident_append (hall t ht).2 _).symm
  have hempty : Drawn a p h₄ .empty ⟨[], [], [], 1⟩ := by
    refine ⟨rfl, fun _ hline => (by cases hline), rfl, fun _ _ htype => (by cases htype), rfl,
      fun _ hcallee => (by cases hcallee), ?_⟩
    rw [hnotes, hunnoted]
    rfl
  refine .bind (Draws.body hp hreached hheading _ hempty) fun h₅ r hbefore₅ hwritten =>
    .pure fun h₆ hquiet₆ => ?_
  obtain ⟨hdrawn, htypes, hcode⟩ := hwritten
  have hdrawn₆ := hdrawn.quiet hquiet₆
  refine ⟨⟨rfl, ?_⟩, fun _ hsettled => ?settled⟩
  case settled =>
    obtain rfl := Option.some.inj hsettled
    rw [hdrawn₆.taken, functionNotes, hp]
  have hlast : h₄ <+: h₆ := hbefore₅.trans hquiet₆.prefix
  have hlines : a.lines p.key = p.lines a := by rw [Assembly.lines, hp]
  have hvalue : a.returnValue p.key = p.returnValue a := by rw [Assembly.returnValue, hp]
  refine .intro (hid.later hlast).2 ?_ ?_ ?_ ?_ ?_ hdrawn₆.lowered
  · rw [hvalue]
    exact (hreturn₂.later (hlater.trans hlast)).2
  · rw [hlines]
    exact hdrawn₆.body
  · rw [hlines]
    exact hdrawn₆.known
  · refine Supplied.constructible (supplied_of_operations hp (fun id' hid' => ?_) hcode)
    rcases List.mem_append.mp hid' with hid' | hid'
    · rcases List.mem_append.mp hid' with hid' | hid'
      · exact hreturned id' (by simpa using hid')
      · exact (hall id' hid').1
    · exact htypes id' hid'
  · rw [hdrawn₆.callees, Assembly.callees, hp]

end Function

/-- The function of a key. -/
theorem makes_function {key : FunctionKey} (hreached : Reached a roots (.function key))
    (hnew : notes h (.function key) = []) :
    Makes a roots (.construct (.function key)) (¬Constructible a (.function key)) h
      ((recipes a).factory (.function key)) fun h' f => Holds a h' (.function key) f := by
  refine .bind (.ofOption fun hnone hconstructible => ?_) fun h₁ m _ ⟨hquiet, hm⟩ => ?_
  · obtain ⟨p, hp⟩ := hconstructible.specialized
    rw [Assembly.specialized?, hnone] at hp
    cases hp
  split
  · next fault hbind =>
    refine .fail fun hconstructible => ?_
    obtain ⟨p, hp⟩ := hconstructible.specialized
    rw [Assembly.specialized?, hm] at hp
    simp [hbind] at hp
  · next s hbind =>
    have hp : a.specialized? key = some ⟨key, m, s⟩ :=
      Assembly.specialized?_eq_some.mpr ⟨rfl, hm, hbind⟩
    exact makes_specialized (p := ⟨key, m, s⟩) hp hreached (hquiet.notes.trans hnew)

/-! ## The laws of the ledger -/

/-- Lowering keeps to the ledger. -/
theorem ledger_lawful (a : Assembly) (roots : Key → Prop) : (ledger a roots).Lawful where
  within_of_act := by
    intro action e hwithin
    refine Nat.lt_of_le_of_lt ?_ hwithin
    cases action <;> simp [recipes, Emission.act, IdSource.next]
  known_append h l k hk := hk.append l
  holds_append h l k v hl hv := hv.append hl
  abandoned_append _ _ _ _ _ := trivial
  fails_of_cycle k hcycle := not_constructible_of_mayAsk hcycle
  factory := by
    intro k h hknown hnew
    have hunnoted : notes h k = [] := notes_eq_nil hnew
    cases k with
    | type id => exact (makes_type hknown hunnoted).factory
    | shape s => exact (makes_shape hknown hunnoted).factory
    | constant type bits => exact (makes_constant hknown hunnoted).factory
    | «variable» field => exact (makes_global hknown.1 hknown.2 hunnoted).factory
    | function key => exact (makes_function hknown hunnoted).factory

end ShaderLowering
