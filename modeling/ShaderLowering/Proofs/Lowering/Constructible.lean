import Mathlib.Data.List.Chain
import Mathlib.Logic.Relation
import ShaderLowering.Lowering.Session

/-!
# What can be constructed

Whether a type, a global variable or a function can be constructed is a matter of the assembly, not
of a run.  `Sound` is what has to be right with the entity itself: whatever it refers to by id exists
and is of the right kind.  `Needs` is the relation between an entity and those that its construction
asks for.  An entity is `Constructible` if it is sound and everything that it needs is constructible;
since that is an inductive definition, nothing that leads back to itself is constructible
(`not_constructible_of_cycle`).

Shapes and constants need nothing and are always constructible.
-/

namespace ShaderLowering

open Relation (TransGen)

/-- A method with the substitution of its placeholders that a function key asks for. -/
structure Specialized where
  key : FunctionKey
  method : MethodDef
  specialization : Specialization

/-- The method of a function key under the substitution that the key asks for. -/
def Assembly.specialized? (a : Assembly) (key : FunctionKey) : Option Specialized :=
  match a.method? key.method with
  | none => none
  | some m =>
    match Specialization.bind a m key with
    | .ok s => some ⟨key, m, s⟩
    | .error _ => none

theorem Assembly.specialized?_eq_some {a : Assembly} {key : FunctionKey} {p : Specialized} :
    a.specialized? key = some p ↔ p.key = key ∧ a.method? key.method = some p.method ∧
      Specialization.bind a p.method key = .ok p.specialization := by
  unfold specialized?
  constructor
  · intro h
    split at h
    · cases h
    · next m hm =>
      split at h
      · next s hs =>
        obtain rfl := Option.some.inj h
        exact ⟨rfl, hm, hs⟩
      · cases h
  · rintro ⟨rfl, hm, hs⟩
    rw [hm]
    simp only [hs]

/-- A member of a list is related to one of the other list. -/
theorem forall₂_mem_left {α β : Type} {R : α → β → Prop} {xs : List α} {ys : List β}
    (h : List.Forall₂ R xs ys) {x : α} (hx : x ∈ xs) : ∃ y ∈ ys, R x y := by
  induction h with
  | nil => cases hx
  | cons hxy _ ih =>
    rcases List.mem_cons.mp hx with rfl | hx
    · exact ⟨_, List.mem_cons_self, hxy⟩
    · obtain ⟨y, hy, hr⟩ := ih hx
      exact ⟨y, List.mem_cons_of_mem _ hy, hr⟩

/-- Where each member of a list is related to something, the list is related to a list. -/
theorem exists_forall₂ {α β : Type} {R : α → β → Prop} {xs : List α} (h : ∀ x ∈ xs, ∃ y, R x y) :
    ∃ ys, List.Forall₂ R xs ys := by
  induction xs with
  | nil => exact ⟨[], .nil⟩
  | cons x xs ih =>
    obtain ⟨y, hy⟩ := h x List.mem_cons_self
    obtain ⟨ys, hys⟩ := ih fun x' hx' => h x' (List.mem_cons_of_mem x hx')
    exact ⟨y :: ys, .cons hy hys⟩

/-- A list is made of another one if each of its members is made of one of the other. -/
theorem mapM_eq_some {α β : Type} {F : α → Option β} {xs : List α} {vs : List β} :
    xs.mapM F = some vs ↔ List.Forall₂ (fun x v => F x = some v) xs vs := by
  induction xs generalizing vs with
  | nil =>
    rw [List.forall₂_nil_left_iff, eq_comm]
    exact Option.some_inj
  | cons x xs ih =>
    rw [List.mapM_cons, List.forall₂_cons_left_iff]
    constructor
    · intro h
      obtain ⟨v, hv, h⟩ := Option.bind_eq_some_iff.mp h
      obtain ⟨vs', hvs', h⟩ := Option.bind_eq_some_iff.mp h
      exact ⟨v, vs', hv, ih.mp hvs', (Option.some.inj h).symm⟩
    · rintro ⟨v, vs', hv, hvs', rfl⟩
      rw [hv, ih.mpr hvs']
      rfl

namespace Specialized

/-- The concrete types of the slots that are given variables. -/
def slotTypes (p : Specialized) : List TypeId :=
  p.method.backedTypes.map p.specialization.apply

/-- The concrete type of what is returned. -/
def returnType? (p : Specialized) : Option TypeId :=
  p.method.returnType.map p.specialization.apply

/-- The front-end types that the function is made of. -/
def types (p : Specialized) : List TypeId :=
  p.returnType?.toList ++ p.key.parameters ++ p.slotTypes

/-- There is a slot with a number. -/
def HasSlot (p : Specialized) (number : Il.Slot) : Prop :=
  number.toNat < p.slotTypes.length

/-- The type that a call gives to a parameter of the callee. -/
def argumentType? (a : Assembly) (p : Specialized) (declared : TypeId) (argument : Il.Slot) :
    Option TypeId :=
  match a.type? declared with
  | none => none
  | some t => if t.isGeneric then p.slotTypes[argument.toNat]? else some declared

/-- The types that a call gives to the parameters of the callee. -/
def argumentTypes? (a : Assembly) (p : Specialized) (target : MethodDef)
    (arguments : List Il.Slot) : Option (List TypeId) :=
  (target.effectiveParameters.zip arguments).mapM fun pair => p.argumentType? a pair.1 pair.2

/-- The method that a call names. -/
def target? (a : Assembly) (wire : UInt64) : Option MethodDef :=
  (EntityId.ofWire? wire).bind a.method?

/-- The key of the function that a call runs. -/
def calleeKey? (a : Assembly) (p : Specialized) (wire : UInt64) (arguments : List Il.Slot) :
    Option FunctionKey :=
  match target? a wire with
  | none => none
  | some target =>
    if arguments.length = target.effectiveParameters.length then
      (p.argumentTypes? a target arguments).map fun parameters => ⟨target.id, parameters⟩
    else
      none

theorem calleeKey?_eq_some {a : Assembly} {p : Specialized} {wire : UInt64} {slots : List Il.Slot}
    {callee : FunctionKey} : p.calleeKey? a wire slots = some callee ↔
      ∃ target parameters, target? a wire = some target ∧
        slots.length = target.effectiveParameters.length ∧
        p.argumentTypes? a target slots = some parameters ∧ callee = ⟨target.id, parameters⟩ := by
  unfold calleeKey?
  constructor
  · intro h
    split at h
    · cases h
    · next target htarget =>
      split at h
      · next hlength =>
        obtain ⟨parameters, hparameters, rfl⟩ := Option.map_eq_some_iff.mp h
        exact ⟨target, parameters, htarget, hlength, hparameters, rfl⟩
      · cases h
  · rintro ⟨target, parameters, htarget, hlength, hparameters, rfl⟩
    simp [htarget, hlength, hparameters]

/-- A call has as many arguments as the method and the function that it calls have parameters. -/
theorem target?_of_calleeKey? {a : Assembly} {p : Specialized} {wire : UInt64} {slots : List Il.Slot}
    {callee : FunctionKey} (hkey : p.calleeKey? a wire slots = some callee) :
    ∃ target, target? a wire = some target ∧ callee.method = target.id ∧
      slots.length = target.effectiveParameters.length ∧
      callee.parameters.length = target.effectiveParameters.length := by
  obtain ⟨target, parameters, htarget, hlength, hparameters, rfl⟩ := calleeKey?_eq_some.mp hkey
  have hzip := (mapM_eq_some.mp hparameters).length_eq
  rw [List.length_zip, hlength, Nat.min_self] at hzip
  exact ⟨target, htarget, rfl, hlength, hzip.symm⟩

/-- An operation refers to nothing that is not there. -/
def Refers (a : Assembly) (p : Specialized) : Il.Operation → Prop
  | .call result wire arguments =>
    (p.calleeKey? a wire arguments).isSome ∧ (∀ slot ∈ arguments, p.HasSlot slot) ∧
      ∀ slot ∈ result, p.HasSlot slot
  | .ret => True
  | .returnValue value => ∃ slot, value = some slot ∧ p.HasSlot slot
  | .load destination source => p.HasSlot destination ∧ p.HasSlot source
  | .loadField destination wire =>
    (EntityId.ofWire? wire : Option FieldId).isSome ∧ p.HasSlot destination
  | .storeField wire source => (EntityId.ofWire? wire : Option FieldId).isSome ∧ p.HasSlot source
  | .loadUInt32 destination _ => p.HasSlot destination
  | .loadFloat32 destination _ => p.HasSlot destination

/-- The operation is one of the method. -/
def Performs (p : Specialized) (op : Il.Operation) : Prop :=
  ∃ i ∈ p.method.code.instructions, i.decode = .ok op

end Specialized

/-- The wire value of the field that an operation accesses. -/
def Il.Operation.field? : Il.Operation → Option UInt64
  | .loadField _ wire => some wire
  | .storeField wire _ => some wire
  | _ => none

/-- What a representation name asks for can be had, once the element of a vector can. -/
def Representation.Supported (a : Assembly) : Representation → Prop
  | .void | .int _ _ | .float _ => True
  | .vector element size => (a.findType? element).isSome ∧ size.isSome
  | .malformed | .unknown => False

/-- Nothing is wrong with the entity of a key itself. -/
def Sound (a : Assembly) : Key → Prop
  | .type id => ∃ t, a.type? id = some t ∧ t.isGeneric = false ∧
      (t.representation? = none ∨ ∃ name, t.representation? = some (some name) ∧
        (Representation.parse name).Supported a)
  | .variable id => ∃ f, a.field? id = some f ∧ f.isStatic = true
  | .function key => ∃ p, a.specialized? key = some p ∧
      ∀ i ∈ p.method.code.instructions, ∃ op, i.decode = .ok op ∧ p.Refers a op
  | .shape _ => True
  | .constant _ _ => True

/-- What the construction of an entity asks for. -/
inductive Needs (a : Assembly) : Key → Key → Prop
  | member {id : TypeId} {t : TypeDef} {f : FieldDef} (htype : a.type? id = some t)
      (hstruct : t.representation? = none) (hfield : f ∈ a.instanceFields t) :
      Needs a (.type id) (.type f.type)
  | element {id : TypeId} {t e : TypeDef} {name element : String} {size : Option Spirv.Word}
      (htype : a.type? id = some t) (hname : t.representation? = some (some name))
      (hvector : Representation.parse name = .vector element size)
      (helement : a.findType? element = some e) : Needs a (.type id) (.type e.id)
  | fieldType {id : FieldId} {f : FieldDef} (hfield : a.field? id = some f) :
      Needs a (.variable id) (.type f.type)
  | type {key : FunctionKey} {p : Specialized} {id : TypeId} (hkey : a.specialized? key = some p)
      (hid : id ∈ p.types) : Needs a (.function key) (.type id)
  | global {key : FunctionKey} {p : Specialized} {op : Il.Operation} {wire : UInt64}
      {field : FieldId} (hkey : a.specialized? key = some p) (hop : p.Performs op)
      (hfield : op.field? = some wire) (hid : EntityId.ofWire? wire = some field) :
      Needs a (.function key) (.variable field)
  | callee {key callee : FunctionKey} {p : Specialized} {result : Option Il.Slot} {wire : UInt64}
      {arguments : List Il.Slot} (hkey : a.specialized? key = some p)
      (hop : p.Performs (.call result wire arguments))
      (hcallee : p.calleeKey? a wire arguments = some callee) :
      Needs a (.function key) (.function callee)

/-- The construction of an entity can succeed. -/
inductive Constructible (a : Assembly) : Key → Prop
  | intro {k : Key} (hsound : Sound a k) (hneeds : ∀ k', Needs a k k' → Constructible a k') :
      Constructible a k

namespace Constructible

variable {a : Assembly} {k k' : Key}

theorem sound (h : Constructible a k) : Sound a k := by
  cases h with
  | intro hsound _ => exact hsound

theorem needs (h : Constructible a k) (hneeds : Needs a k k') : Constructible a k' := by
  cases h with
  | intro _ hall => exact hall k' hneeds

theorem shape (s : Shape) : Constructible a (.shape s) :=
  .intro trivial fun _ hneeds => nomatch hneeds

theorem constant (type : Spirv.Id) (bits : Spirv.Word) : Constructible a (.constant type bits) :=
  .intro trivial fun _ hneeds => nomatch hneeds

end Constructible

/-- Nothing is wrong with an entity, and everything that it needs is had. -/
def Supplied (a : Assembly) (had : Key → Prop) (k : Key) : Prop :=
  Sound a k ∧ ∀ k', Needs a k k' → had k'

/-- What is supplied with entities that are constructible is constructible. -/
theorem Supplied.constructible {a : Assembly} {k : Key} (h : Supplied a (Constructible a) k) :
    Constructible a k :=
  .intro h.1 h.2

/-- What leads back to itself cannot be constructed. -/
theorem not_constructible_of_cycle {a : Assembly} {k : Key} (hcycle : TransGen (Needs a) k k) :
    ¬Constructible a k := by
  intro h
  induction h with
  | intro _ _ ih =>
    -- The cycle can be entered one entity further on.
    obtain ⟨k', hneeds, hback⟩ := TransGen.head'_iff.mp hcycle
    exact ih k' hneeds (TransGen.tail' hback hneeds)

/-! ## Types and variables that can be constructed -/

section Types

variable {a : Assembly} {had : Key → Prop} {id : TypeId} {t : TypeDef} {name : String}

/-- What is right with a type. -/
theorem Sound.of_type (h : Sound a (.type id)) (ht : a.type? id = some t) :
    t.isGeneric = false ∧ (t.representation? = none ∨ ∃ name, t.representation? = some (some name) ∧
      (Representation.parse name).Supported a) := by
  obtain ⟨t', ht', hright⟩ := h
  obtain rfl := Option.some.inj (ht.symm.trans ht')
  exact hright

/-- What the representation name of a type asks for can be had. -/
theorem Sound.supported (h : Sound a (.type id)) (ht : a.type? id = some t)
    (hname : t.representation? = some (some name)) : (Representation.parse name).Supported a := by
  obtain ⟨-, hstruct | ⟨name', hname', hsupported⟩⟩ := h.of_type ht
  · rw [hname] at hstruct
    cases hstruct
  · obtain rfl := Option.some.inj (Option.some.inj (hname.symm.trans hname'))
    exact hsupported

/-- A type is supplied if it is laid out by the platform, supported, and the element of a vector is had. -/
theorem supplied_of_supported (ht : a.type? id = some t) (hgeneric : t.isGeneric = false)
    (hname : t.representation? = some (some name))
    (hsupported : (Representation.parse name).Supported a)
    (helement : ∀ element size e, Representation.parse name = .vector element size →
      a.findType? element = some e → had (.type e.id)) :
    Supplied a had (.type id) := by
  refine ⟨⟨t, ht, hgeneric, .inr ⟨name, hname, hsupported⟩⟩, fun k' hneeds => ?_⟩
  cases hneeds with
  | member ht' hstruct hfield =>
    obtain rfl := Option.some.inj (ht.symm.trans ht')
    rw [hname] at hstruct
    cases hstruct
  | element ht' hname' hparse hfound =>
    obtain rfl := Option.some.inj (ht.symm.trans ht')
    obtain rfl := Option.some.inj (Option.some.inj (hname.symm.trans hname'))
    exact helement _ _ _ hparse hfound

/-- A struct is supplied if the types of its instance fields are had. -/
theorem supplied_of_members (ht : a.type? id = some t) (hgeneric : t.isGeneric = false)
    (hstruct : t.representation? = none)
    (hmembers : ∀ f ∈ a.instanceFields t, had (.type f.type)) : Supplied a had (.type id) := by
  refine ⟨⟨t, ht, hgeneric, .inl hstruct⟩, fun k' hneeds => ?_⟩
  cases hneeds with
  | member ht' _ hfield =>
    obtain rfl := Option.some.inj (ht.symm.trans ht')
    exact hmembers _ hfield
  | element ht' hname =>
    obtain rfl := Option.some.inj (ht.symm.trans ht')
    rw [hstruct] at hname
    cases hname

/-- A global variable is supplied if its field is static and the type of the field is had. -/
theorem supplied_of_fieldType {field : FieldId} {f : FieldDef}
    (hsound : Sound a (.variable field)) (hf : a.field? field = some f)
    (htype : had (.type f.type)) : Supplied a had (.variable field) := by
  refine ⟨hsound, fun k' hneeds => ?_⟩
  cases hneeds with
  | fieldType hf' =>
    obtain rfl := Option.some.inj (hf.symm.trans hf')
    exact htype

end Types

/-! ## Functions that can be constructed -/

/-- The key of the function that an operation calls. -/
def Specialized.called (a : Assembly) (p : Specialized) : Il.Operation → List FunctionKey
  | .call _ wire arguments => (p.calleeKey? a wire arguments).toList
  | _ => []

/-- Everything that an operation refers to is there, and what it asks for is had. -/
structure Specialized.Supplied (a : Assembly) (had : Key → Prop) (p : Specialized)
    (op : Il.Operation) : Prop where
  refers : p.Refers a op
  global : ∀ wire field, op.field? = some wire → EntityId.ofWire? wire = some field →
    had (.variable field)
  callee : ∀ key ∈ p.called a op, had (.function key)

/-- Everything that an operation refers to is there and can be constructed. -/
abbrev Specialized.Feasible (a : Assembly) (p : Specialized) (op : Il.Operation) : Prop :=
  p.Supplied a (Constructible a) op

/-- An operation that accesses no field and calls nothing asks for nothing. -/
theorem Specialized.Supplied.of_refers {a : Assembly} {had : Key → Prop} {p : Specialized}
    {op : Il.Operation} (hrefers : p.Refers a op) (hfield : op.field? = none)
    (hcalled : p.called a op = []) : p.Supplied a had op where
  refers := hrefers
  global wire field hwire := by simp [hfield] at hwire
  callee key hkey := by simp [hcalled] at hkey

/-- An operation that accesses a field asks for the variable of the field. -/
theorem Specialized.Supplied.of_field {a : Assembly} {had : Key → Prop} {p : Specialized}
    {op : Il.Operation} {wire : UInt64} {field : FieldId} (hrefers : p.Refers a op)
    (hwire : op.field? = some wire) (hfound : EntityId.ofWire? wire = some field)
    (hvariable : had (.variable field)) (hcalled : p.called a op = []) : p.Supplied a had op where
  refers := hrefers
  global wire' field' hwire' hfound' := by
    obtain rfl := Option.some.inj (hwire.symm.trans hwire')
    obtain rfl := Option.some.inj (hfound.symm.trans hfound')
    exact hvariable
  callee key hkey := by simp [hcalled] at hkey

section Functions

variable {a : Assembly} {p : Specialized}

theorem Constructible.specialized {key : FunctionKey} (h : Constructible a (.function key)) :
    ∃ p, a.specialized? key = some p := by
  obtain ⟨p, hp, -⟩ := h.sound
  exact ⟨p, hp⟩

/-- The operations of a constructible function are feasible. -/
theorem Constructible.operation (h : Constructible a (.function p.key))
    (hp : a.specialized? p.key = some p) {i : Il.Instruction}
    (hi : i ∈ p.method.code.instructions) : ∃ op, i.decode = .ok op ∧ p.Feasible a op := by
  obtain ⟨p', hp', hall⟩ := h.sound
  obtain rfl := Option.some.inj (hp.symm.trans hp')
  obtain ⟨op, hop, hrefers⟩ := hall i hi
  refine ⟨op, hop, hrefers, fun wire field hwire hfield => ?_, fun key hkey => ?_⟩
  · exact h.needs (.global hp ⟨i, hi, hop⟩ hwire hfield)
  · cases op with
    | call result wire arguments =>
      exact h.needs (.callee hp ⟨i, hi, hop⟩ (by simpa [Specialized.called] using hkey))
    | _ => cases hkey

theorem Constructible.feasible (h : Constructible a (.function p.key))
    (hp : a.specialized? p.key = some p) {op : Il.Operation} (hop : p.Performs op) :
    p.Feasible a op := by
  obtain ⟨i, hi, hdecode⟩ := hop
  obtain ⟨op', hop', hfeasible⟩ := h.operation hp hi
  rw [hdecode] at hop'
  obtain rfl := Except.ok.inj hop'
  exact hfeasible

/-- A function is supplied if its types are had and its operations are supplied. -/
theorem supplied_of_operations {had : Key → Prop} (hp : a.specialized? p.key = some p)
    (htypes : ∀ id ∈ p.types, had (.type id))
    (hcode : ∀ i ∈ p.method.code.instructions, ∃ op, i.decode = .ok op ∧ p.Supplied a had op) :
    Supplied a had (.function p.key) := by
  have hsound : Sound a (.function p.key) := by
    refine ⟨p, hp, fun i hi => ?_⟩
    obtain ⟨op, hop, hsupplied⟩ := hcode i hi
    exact ⟨op, hop, hsupplied.refers⟩
  -- An instruction is decoded to one operation.
  have hperformed : ∀ op, p.Performs op → p.Supplied a had op := by
    rintro op ⟨i, hi, hdecode⟩
    obtain ⟨op', hop', hsupplied⟩ := hcode i hi
    rw [hdecode] at hop'
    obtain rfl := Except.ok.inj hop'
    exact hsupplied
  refine ⟨hsound, fun k' hneeds => ?_⟩
  cases hneeds with
  | type hp' hid =>
    obtain rfl := Option.some.inj (hp.symm.trans hp')
    exact htypes _ hid
  | global hp' hop hwire hfield =>
    obtain rfl := Option.some.inj (hp.symm.trans hp')
    exact (hperformed _ hop).global _ _ hwire hfield
  | callee hp' hop hcallee =>
    obtain rfl := Option.some.inj (hp.symm.trans hp')
    exact (hperformed _ hop).callee _ (by simp [Specialized.called, hcallee])

end Functions

end ShaderLowering
