import ShaderLowering.Proofs.Lowering.Keys
import ShaderLowering.Proofs.Sessions.Regime

/-!
# What constructions ask for

The regime of an assembly (`regime`): a construction asks for what its entity needs, and for shapes and
constants beside that; a key is good if its entity is constructible; and something is wrong with an entity
that is not sound or needs one that is not.  Types and global variables obey it (`keeps_buildType`,
`keeps_buildGlobal`).

What is asked for as a matter of need is `Listed`: its types are there, and its method is.  The regime
insists on that because keys that are listed are finitely many.
-/

namespace ShaderLowering

open Construction (Task Regime)
open Relation (ReflTransGen TransGen)
open Spirv

namespace Key

/-- Constructions ask for keys of their own stage or of a lower one: for functions, then variables, then
types, then shapes and constants. -/
def stage : Key → Nat
  | .function _ => 3
  | .variable _ => 2
  | .type _ => 1
  | .shape _ | .constant .. => 0

/-- The types of a key are there, its method has a parameter for each of them, and its field is static. -/
def Listed (a : Assembly) : Key → Prop
  | .type id => (a.type? id).isSome
  | .variable id => Sound a (.variable id)
  | .function key => ∃ m, a.method? key.method = some m ∧
      key.parameters.length = m.effectiveParameters.length ∧
      ∀ id ∈ key.parameters, (a.type? id).isSome
  | _ => True

end Key

/-- What the construction of an entity asks for: what it needs, if that is listed, and shapes and
constants. -/
inductive Asks (a : Assembly) (k k' : Key) : Prop
  | needed (hneeds : Needs a k k') (hlisted : k'.Listed a) : Asks a k k'
  | leaf (hstage : 0 < k.stage) (hleaf : k'.stage = 0) : Asks a k k'

/-- Something is wrong with an entity or with one that it needs. -/
def Wrong (a : Assembly) (k : Key) : Prop :=
  ¬Sound a k ∨ ∃ k', Needs a k k' ∧ ¬Sound a k'

/-- What constructions of an assembly keep to on one thread. -/
def regime (a : Assembly) : Regime lowering Emission where
  recipes := recipes a
  known
    | .variable id => Sound a (.variable id)
    | _ => True
  asks := Asks a
  good := Constructible a
  wrong := Wrong a

section Laws

variable {a : Assembly} {k k' : Key}

theorem Needs.stage_pos (h : Needs a k k') : 0 < k.stage := by
  cases h <;> simp [Key.stage]

theorem Needs.stage_le (h : Needs a k k') : k'.stage ≤ k.stage := by
  cases h <;> simp [Key.stage]

theorem stage_le_of_needs (h : ReflTransGen (Needs a) k k') : k'.stage ≤ k.stage := by
  induction h with
  | refl => exact le_rfl
  | tail _ hneeds ih => exact hneeds.stage_le.trans ih

theorem constructible_of_leaf (hleaf : k.stage = 0) : Constructible a k := by
  cases k with
  | shape s => exact .shape s
  | constant type bits => exact .constant type bits
  | _ => simp [Key.stage] at hleaf

theorem Asks.stage_pos (h : Asks a k k') : 0 < k.stage := by
  cases h with
  | needed hneeds _ => exact hneeds.stage_pos
  | leaf hstage _ => exact hstage

theorem Asks.needs (h : Asks a k k') (hstage : 0 < k'.stage) : Needs a k k' := by
  cases h with
  | needed hneeds _ => exact hneeds
  | leaf _ hleaf => exact absurd hleaf (Nat.ne_of_gt hstage)

/-- What asks for itself needs itself. -/
theorem needs_of_asks (h : ReflTransGen (Asks a) k k') (hstage : 0 < k'.stage) :
    ReflTransGen (Needs a) k k' := by
  induction h with
  | refl => exact .refl
  | tail _ hasks ih => exact .tail (ih hasks.stage_pos) (hasks.needs hstage)

theorem cycle_of_asks (h : TransGen (Asks a) k k) : TransGen (Needs a) k k := by
  obtain ⟨k', hpath, hasks⟩ := TransGen.tail'_iff.mp h
  obtain ⟨_, hfirst, -⟩ := TransGen.head'_iff.mp h
  exact .tail' (needs_of_asks hpath hasks.stage_pos) (hasks.needs hfirst.stage_pos)

theorem Wrong.not_constructible (h : Wrong a k) : ¬Constructible a k := by
  intro hconstructible
  rcases h with hunsound | ⟨k', hneeds, hunsound⟩
  · exact hunsound hconstructible.sound
  · exact hunsound (hconstructible.needs hneeds).sound

end Laws

/-! ## Reasoning about constructions -/

/-- A construction for a key obeys the regime and ends with a value of which `R` holds, where `had` is what
may be said of the keys that it has been given. -/
abbrev Keeps {α : Type} (a : Assembly) (had : Key → Prop) (k : Key) (t : Construct α)
    (R : α → Prop) : Prop :=
  Task.Obeys (I := lowering) (Asks a k) had (Wrong a k) t R

section Rules

variable {a : Assembly} {had : Key → Prop} {k : Key}

theorem keeps_shape (hstage : 0 < k.stage) (s : Shape) :
    Keeps a had k (Construct.shape s) fun _ => True :=
  .mono (.ask (.leaf hstage rfl)) fun _ _ => trivial

theorem keeps_constant (hstage : 0 < k.stage) (type : Id) (bits : Word) :
    Keeps a had k (Construct.constant type bits) fun _ => True :=
  .mono (.ask (.leaf hstage rfl)) fun _ _ => trivial

/-- A type that is needed is there and had, if it is had at all. -/
theorem keeps_type {id : TypeId} (hneeds : Needs a k (.type id)) :
    Keeps a had k (Construct.type a id) fun _ => (a.type? id).isSome ∧ had (.type id) := by
  refine .bind (.ofOption fun hnone => .inr ⟨_, hneeds, ?_⟩) fun t ht => ?_
  · rintro ⟨t, ht, -⟩
    rw [hnone] at ht
    cases ht
  · have hlisted : Key.Listed a (.type id) := by
      rw [Key.Listed, ht]
      rfl
    exact .mono (.ask (.needed hneeds hlisted)) fun _ hhad => ⟨hlisted, hhad⟩

end Rules

/-! ## Types -/

section Types

variable {a : Assembly} {had : Key → Prop} {id : TypeId} {t : TypeDef} {name : String}

/-- The type that a representation name asks for is had only if the type is supplied. -/
theorem keeps_representation? (ht : a.type? id = some t) (hgeneric : t.isGeneric = false)
    (hname : t.representation? = some (some name)) :
    Keeps a had (.type id) (Construct.representation? a t name) fun resolved =>
      (resolved = none → Wrong a (.type id)) ∧
        ∀ i, resolved = some i → Supplied a had (.type id) := by
  have hbad : ¬(Representation.parse name).Supported a → Wrong a (.type id) := fun hno =>
    .inl fun hsound => hno (hsound.supported ht hname)
  -- All shapes that have no constituents are alike; the vector is the one that asks again.
  have hplain : (∀ element size, Representation.parse name ≠ .vector element size) →
      (Representation.parse name).Supported a → ∀ s : Shape,
      Keeps a had (.type id) (some <$> Construct.shape s) fun resolved =>
        (resolved = none → Wrong a (.type id)) ∧
          ∀ i, resolved = some i → Supplied a had (.type id) := by
    intro hother hsupported s
    refine .map (.mono (keeps_shape (k := .type id) Nat.one_pos s) fun v _ => ⟨nofun, fun _ _ => ?_⟩)
    exact supplied_of_supported ht hgeneric hname hsupported fun element size _ hparse =>
      absurd hparse (hother element size)
  unfold Construct.representation?
  cases hparse : Representation.parse name with
  | unknown => exact .pure ⟨fun _ => hbad (by rw [hparse]; exact fun hno => hno), nofun⟩
  | malformed => exact .fail (hbad (by rw [hparse]; exact fun hno => hno))
  | void => exact hplain (by simp [hparse]) (by rw [hparse]; trivial) _
  | int width signed => exact hplain (by simp [hparse]) (by rw [hparse]; trivial) _
  | float width => exact hplain (by simp [hparse]) (by rw [hparse]; trivial) _
  | vector element size =>
    refine .bind (.ofOption fun hnone => hbad ?_) fun e he => ?_
    · simp [hparse, Representation.Supported, hnone]
    refine .bind (keeps_type (.element ht hname hparse he)) fun i hhad => ?_
    refine .bind (.ofOption fun hnone => hbad ?_) fun n hn => ?_
    · simp [hparse, Representation.Supported, hnone]
    refine .map (.mono (keeps_shape (k := .type id) Nat.one_pos _) fun v _ => ⟨nofun, fun _ _ => ?_⟩)
    refine supplied_of_supported ht hgeneric hname ?_ fun element' size' e' hparse' he' => ?_
    · simp [hparse, Representation.Supported, he, hn]
    · obtain ⟨rfl, -⟩ := Representation.vector.inj (hparse.symm.trans hparse')
      obtain rfl := Option.some.inj (he.symm.trans he')
      exact hhad.2

/-- The struct of the instance fields of a type is made only if the type is supplied. -/
theorem keeps_buildStruct (ht : a.type? id = some t) (hgeneric : t.isGeneric = false)
    (hstruct : t.representation? = none) :
    Keeps a had (.type id) (Construct.buildStruct a t) fun _ => Supplied a had (.type id) := by
  have hmembers : Keeps a had (.type id) ((a.instanceFields t).mapM fun f => Construct.type a f.type)
      fun ids => List.Forall₂ (fun f _ => had (.type f.type)) (a.instanceFields t) ids :=
    .mapM fun f hf => .mono (keeps_type (.member ht hstruct hf)) fun _ hhad => hhad.2
  refine .bind hmembers fun ids hids => .mono (.perform _) fun _ _ => ?_
  refine supplied_of_members ht hgeneric hstruct fun f hf => ?_
  obtain ⟨i, -, hi⟩ := forall₂_mem_left hids hf
  exact hi

/-- The type that stands for a front-end type is made only if the front-end type is supplied. -/
theorem keeps_buildType : Keeps a had (.type id) ((recipes a).factory (.type id)) fun _ =>
    Supplied a had (.type id) := by
  refine .bind (.ofOption fun hnone => .inl ?_) fun t ht => ?_
  · rintro ⟨t, ht, -⟩
    rw [hnone] at ht
    cases ht
  unfold Construct.buildType
  split
  · next hgeneric =>
    refine .fail (.inl fun hsound => ?_)
    rw [(hsound.of_type ht).1] at hgeneric
    cases hgeneric
  · next hplain =>
    have hgeneric : t.isGeneric = false := by simpa using hplain
    split
    · next hstruct => exact keeps_buildStruct ht hgeneric hstruct
    · next hmissing =>
      refine .fail (.inl fun hsound => ?_)
      have hright := (hsound.of_type ht).2
      simp [hmissing] at hright
    · next name hname =>
      refine .bind (keeps_representation? ht hgeneric hname) fun resolved hresolved => ?_
      exact .mono (.ofOption hresolved.1) fun i hi => hresolved.2 i hi

end Types

/-! ## Global variables -/

/-- The global variable behind a static field is made only if it is supplied. -/
theorem keeps_buildGlobal {a : Assembly} {had : Key → Prop} {field : FieldId}
    (hsound : Sound a (.variable field)) :
    Keeps a had (.variable field) ((recipes a).factory (.variable field)) fun _ =>
      Supplied a had (.variable field) := by
  refine .bind (.ofOption fun hnone => .inl ?_) fun f hf => ?_
  · rintro ⟨f, hf, -⟩
    rw [hnone] at hf
    cases hf
  refine .bind (keeps_type (.fieldType hf)) fun i htype => ?_
  have hsupplied := supplied_of_fieldType hsound hf htype.2
  refine .bind (keeps_shape (k := .variable field) Nat.two_pos _) fun j _ => ?_
  refine .bind (.perform _) fun v _ => ?_
  dsimp only
  split
  · exact .bind (.perform _) fun _ _ => .bind (.perform _) fun _ _ => .pure hsupplied
  · exact .bind (.perform _) fun _ _ => .pure hsupplied

end ShaderLowering
