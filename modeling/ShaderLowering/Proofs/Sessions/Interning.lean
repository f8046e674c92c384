import ShaderLowering.Layout.IdPositions
import ShaderLowering.Lowering.Session
import ShaderLowering.Proofs.Lowering.Denotations
import ShaderLowering.Proofs.Sessions.Upkeep

/-!
# Types are declared once

In every state of a session a type that is ready for a front-end type denotes something, and its id is the
one that stands for what it denotes (`Means`): types are put together from ids, so those that are the same
by structure are ready under the same keys, and each of these has an id of its own (`Interned`).  That is
kept up by everything that is constructed (`upkeep_lawful`), as long as the ids fit a word.
-/

namespace ShaderLowering

open Construction (Task Upkeep State SlotState)
open Spirv

/-! ## Types that are ready -/

/-- What a type is declared for: a built-in shape, or a front-end type that becomes a struct. -/
inductive Origin where
  | shape (s : Shape)
  | struct (id : TypeId)

/-- The type of an origin is ready. -/
def Made (a : Assembly) (s : Session) : Origin → Id → Prop
  | .shape shape, i => s.slots.get? (.shape shape) = some (.ready i)
  | .struct id, i => s.slots.get? (.type id) = some (.ready i) ∧
      ∃ t, a.type? id = some t ∧ t.representation? = none

/-- An id stands for what a type denotes. -/
def Means (a : Assembly) (s : Session) : ValueType → Id → Prop
  | .void, i => Made a s (.shape .void) i
  | .int width signed, i => Made a s (.shape (.int width signed)) i
  | .float width, i => Made a s (.shape (.float width)) i
  | .vector element size, i => ∃ j, Means a s element j ∧ Made a s (.shape (.vector j size)) i
  | .struct id, i => Made a s (.struct id) i

/-- No two declarations have the same id, and all of their ids have been issued. -/
structure Emission.Distinct (e : Emission) : Prop where
  nodup : (e.declared.filterMap (Instruction.resultId? .named)).Nodup
  issued : ∀ w ∈ e.declared.filterMap (Instruction.resultId? .named), w.toNat ≤ e.ids.issued

/-- What is ready of types, and how it has been declared. -/
structure Interned (a : Assembly) (s : Session) : Prop where
  issued : ∀ o i, Made a s o i → i.raw.toNat ≤ s.shared.ids.issued
  distinct : ∀ o o' i, Made a s o i → Made a s o' i → o = o'
  shapes : ∀ shape i, s.slots.get? (.shape shape) = some (.ready i) →
    (Declaration.shape shape).instruction i ∈ s.shared.declared
  types : ∀ id i, s.slots.get? (.type id) = some (.ready i) →
    ∃ type, Denotes a id type ∧ Means a s type i
  structs : ∀ id i t, s.slots.get? (.type id) = some (.ready i) → a.type? id = some t →
    t.representation? = none → ∃ members : List Id,
      List.Forall₂ (fun f m => s.slots.get? (.type f.type) = some (.ready m)) (a.instanceFields t)
        members ∧ (Declaration.struct members).instruction i ∈ s.shared.declared
  declarations : s.shared.Distinct

section Meaning

variable {a : Assembly} {s s' : Session} {o : Origin} {i i' : Id} {type type' : ValueType}

theorem Made.later (h : s.Within s') (hmade : Made a s o i) : Made a s' o i := by
  cases o with
  | shape shape => exact h (.shape shape) i hmade
  | struct id => exact ⟨h (.type id) i hmade.1, hmade.2⟩

theorem Made.unique (h : Made a s o i) (h' : Made a s o i') : i = i' := by
  cases o with
  | shape shape => exact SlotState.ready.inj (Option.some.inj (h.symm.trans h'))
  | struct id => exact SlotState.ready.inj (Option.some.inj (h.1.symm.trans h'.1))

theorem Means.later (h : s.Within s') (hmeans : Means a s type i) : Means a s' type i := by
  induction type generalizing i with
  | vector element size ih =>
    obtain ⟨j, helement, hmade⟩ := hmeans
    exact ⟨j, ih helement, hmade.later h⟩
  | _ => exact Made.later h hmeans

/-- One id stands for what a type denotes. -/
theorem Means.unique (h : Means a s type i) (h' : Means a s type i') : i = i' := by
  induction type generalizing i i' with
  | vector element size ih =>
    obtain ⟨j, helement, hmade⟩ := h
    obtain ⟨j', helement', hmade'⟩ := h'
    obtain rfl := ih helement helement'
    exact hmade.unique hmade'
  | _ => exact Made.unique h h'

/-- An id stands for one denotation. -/
theorem Interned.eq_of_means (hs : Interned a s) (h : Means a s type i) (h' : Means a s type' i) :
    type = type' := by
  induction type generalizing type' i with
  | vector element size ih =>
    obtain ⟨j, helement, hmade⟩ := h
    cases type' with
    | vector element' size' =>
      obtain ⟨j', helement', hmade'⟩ := h'
      have hsame := hs.distinct _ _ i hmade hmade'
      obtain ⟨rfl, rfl⟩ := Shape.vector.inj (Origin.shape.inj hsame)
      rw [ih helement helement']
    | _ => cases hs.distinct _ _ i hmade h'
  | _ =>
    cases type' with
    | vector element' size' =>
      obtain ⟨j', -, hmade'⟩ := h'
      cases hs.distinct _ _ i h hmade'
    | _ => cases hs.distinct _ _ i h h' <;> rfl

/-- Ids are the same if and only if what they stand for is. -/
theorem Interned.means_iff (hs : Interned a s) (h : Means a s type i) (h' : Means a s type' i') :
    i = i' ↔ type = type' := by
  constructor
  · rintro rfl
    exact hs.eq_of_means h h'
  · rintro rfl
    exact h.unique h'

end Meaning

/-! ## Actions -/

theorem Declaration.resultId?_instruction (d : Declaration) (id : Id) :
    (d.instruction id).resultId? .named = some id.raw := by
  cases d with
  | shape shape => cases shape <;> simp [instruction, Instruction.resultId?, Instruction.op?, Shape.op]
  | _ => simp [instruction, Instruction.resultId?, Instruction.op?]

/-- Ids are issued and declarations are written, none is taken back. -/
structure Emission.Grows (e e' : Emission) : Prop where
  issued : e.ids.issued ≤ e'.ids.issued
  declared : e.declared ⊆ e'.declared

/-- The id that is issued next is none of those issued before. -/
theorem toNat_next {ids : IdSource} (h : ids.issued + 1 < UInt32.size) :
    ids.next.1.raw.toNat = ids.issued + 1 :=
  UInt32.toNat_ofNat_of_lt' h

theorem Emission.grows_act (e : Emission) (action : Action) : e.Grows (e.act action).2 := by
  cases action with
  | freshId => exact ⟨Nat.le_succ _, List.Subset.refl _⟩
  | declare d => exact ⟨Nat.le_succ _, List.subset_append_left _ _⟩
  | decorate target location => exact ⟨le_rfl, List.Subset.refl _⟩
  | expose global => exact ⟨le_rfl, List.Subset.refl _⟩

theorem Emission.Distinct.act {e : Emission} (h : e.Distinct) (action : Action)
    (hsize : (e.act action).2.ids.issued < UInt32.size) : (e.act action).2.Distinct := by
  cases action with
  | freshId => exact ⟨h.nodup, fun w hw => (h.issued w hw).trans (Nat.le_succ _)⟩
  | declare d =>
    have hnext : e.ids.next.1.raw.toNat = e.ids.issued + 1 := toNat_next hsize
    have hresults : (e.act (.declare d)).2.declared.filterMap (Instruction.resultId? .named) =
        e.declared.filterMap (Instruction.resultId? .named) ++ [e.ids.next.1.raw] := by
      simp [Emission.act, Declaration.resultId?_instruction]
    refine ⟨?_, fun w hw => ?_⟩
    · rw [hresults]
      refine List.nodup_append.mpr ⟨h.nodup, List.nodup_singleton _, fun w hw w' hw' heq => ?_⟩
      have hle := h.issued w hw
      rw [heq, List.mem_singleton.mp hw', hnext] at hle
      exact absurd hle (Nat.not_succ_le_self _)
    · rw [hresults] at hw
      rcases List.mem_append.mp hw with hw | hw
      · exact (h.issued w hw).trans (Nat.le_succ _)
      · rw [List.mem_singleton.mp hw, hnext]
        exact le_rfl
  | decorate target location => exact ⟨h.nodup, h.issued⟩
  | expose global => exact ⟨h.nodup, h.issued⟩

/-! ## Slots -/

section Slots

variable {a : Assembly} {s s' : Session}

/-- What is ready in a later state is either ready before or as it should be. -/
theorem Interned.extend (hs : Interned a s) (hwithin : s.Within s') (hgrows : s.shared.Grows s'.shared)
    (hdistinct : s'.shared.Distinct) (made : Origin)
    (hmade : ∀ o i, Made a s' o i → Made a s o i ∨
      o = made ∧ i.raw.toNat ≤ s'.shared.ids.issued ∧ ∀ o' j, Made a s o' j → j ≠ i)
    (hshapes : ∀ shape i, s'.slots.get? (.shape shape) = some (.ready i) →
      s.slots.get? (.shape shape) = some (.ready i) ∨
        (Declaration.shape shape).instruction i ∈ s'.shared.declared)
    (htypes : ∀ id i, s'.slots.get? (.type id) = some (.ready i) →
      s.slots.get? (.type id) = some (.ready i) ∨
        (∃ type, Denotes a id type ∧ Means a s' type i) ∧ ∀ t, a.type? id = some t →
          t.representation? = none → ∃ members : List Id,
            List.Forall₂ (fun f m => s'.slots.get? (.type f.type) = some (.ready m))
              (a.instanceFields t) members ∧
            (Declaration.struct members).instruction i ∈ s'.shared.declared) : Interned a s' := by
  constructor
  case issued =>
    intro o i ho
    rcases hmade o i ho with hold | ⟨-, hissued, -⟩
    · exact (hs.issued o i hold).trans hgrows.issued
    · exact hissued
  -- Two origins with one id: at most one of them is new, and the new one's id is fresh.
  case distinct =>
    intro o o' i ho ho'
    rcases hmade o i ho with hold | ⟨rfl, -, hfresh⟩ <;>
      rcases hmade o' i ho' with hold' | ⟨rfl, -, hfresh'⟩
    · exact hs.distinct o o' i hold hold'
    · exact absurd rfl (hfresh' o i hold)
    · exact absurd rfl (hfresh o' i hold')
    · rfl
  case shapes =>
    intro shape i hready
    rcases hshapes shape i hready with hold | hdeclared
    · exact hgrows.declared (hs.shapes shape i hold)
    · exact hdeclared
  case types =>
    intro id i hready
    rcases htypes id i hready with hold | ⟨hnew, -⟩
    · obtain ⟨type, hdenotes, hmeans⟩ := hs.types id i hold
      exact ⟨type, hdenotes, hmeans.later hwithin⟩
    · exact hnew
  case structs =>
    intro id i t hready ht hstruct
    rcases htypes id i hready with hold | ⟨-, hnew⟩
    · obtain ⟨members, hmembers, hdeclared⟩ := hs.structs id i t hold ht hstruct
      exact ⟨members, hmembers.imp fun f m hm => hwithin (.type f.type) m hm, hgrows.declared hdeclared⟩
    · exact hnew t ht hstruct
  case declarations => exact hdistinct

/-- Where no type has become ready, nothing changes. -/
theorem Interned.congr (hs : Interned a s) (hwithin : s.Within s') (hgrows : s.shared.Grows s'.shared)
    (hdistinct : s'.shared.Distinct)
    (hshapes : ∀ shape i, s'.slots.get? (.shape shape) = some (.ready i) →
      s.slots.get? (.shape shape) = some (.ready i))
    (htypes : ∀ id i, s'.slots.get? (.type id) = some (.ready i) →
      s.slots.get? (.type id) = some (.ready i)) : Interned a s' := by
  refine hs.extend hwithin hgrows hdistinct (.shape .void) (fun o i ho => .inl ?_)
    (fun shape i h => .inl (hshapes shape i h)) fun id i h => .inl (htypes id i h)
  cases o with
  | shape shape => exact hshapes shape i ho
  | struct id => exact ⟨htypes id i ho.1, ho.2⟩

/-- A slot that is settled and is not that of a type changes nothing of types. -/
theorem Interned.settle_other (hs : Interned a s) {k : Key} {slot : SlotState k.Value}
    (hold : s.slots.get? k = none ∨ s.slots.get? k = some .building)
    (hother : (∀ v, slot ≠ .ready v) ∨ ((∀ shape, k ≠ .shape shape) ∧ ∀ id, k ≠ .type id)) :
    Interned a (s.settle k slot) := by
  have hwithin : s.Within (s.settle k slot) := by
    refine .settle (fun v => ?_) (.refl s) slot
    -- A slot that is absent or building holds no value, so settling it takes none away.
    rcases hold with hold | hold <;> rw [hold] <;> exact nofun
  have hsame : ∀ (k' : Key) (v : k'.Value), ((∃ shape, k' = .shape shape) ∨ ∃ id, k' = .type id) →
      (s.settle k slot).slots.get? k' = some (.ready v) → s.slots.get? k' = some (.ready v) := by
    intro k' v htype hready
    by_cases hk : k' = k
    · subst hk
      rw [State.settle, Construction.Table.get?_set_self] at hready
      rcases hother with hnot | ⟨hshape, hid⟩
      · exact absurd (Option.some.inj hready) (hnot v)
      · rcases htype with ⟨shape, rfl⟩ | ⟨id, rfl⟩
        · exact absurd rfl (hshape shape)
        · exact absurd rfl (hid id)
    · rw [State.settle, Construction.Table.get?_set_of_ne hk] at hready
      exact hready
  exact hs.congr hwithin ⟨le_rfl, List.Subset.refl _⟩ hs.declarations
    (fun shape i => hsame (.shape shape) i (.inl ⟨shape, rfl⟩))
    fun id i => hsame (.type id) i (.inr ⟨id, rfl⟩)

/-- The state after a declaration has been written. -/
def Session.declared (s : Session) (d : Declaration) : Session :=
  { s with shared := (s.shared.act (.declare d)).2 }

/-- The id of a declaration that is written next. -/
def Session.next (s : Session) : Id :=
  s.shared.ids.next.1

theorem within_settle {k : Key} {slot : SlotState k.Value}
    (hbuilding : s.slots.get? k = some .building) : s.Within (s.settle k slot) :=
  .settle (fun v => by rw [hbuilding]; exact nofun) (.refl s) slot

/-- What is ready once a slot is settled is what was put there, or was ready before. -/
theorem ready_settle {k k' : Key} {slot : SlotState k.Value} {v : k'.Value}
    (h : (s.settle k slot).slots.get? k' = some (.ready v)) :
    k' = k ∨ s.slots.get? k' = some (.ready v) := by
  by_cases hk : k' = k
  · exact .inl hk
  · rw [State.settle, Construction.Table.get?_set_of_ne hk] at h
    exact .inr h

theorem eq_of_settle_self {k : Key} {v v' : k.Value}
    (h : (s.settle k (.ready v)).slots.get? k = some (.ready v')) : v' = v := by
  rw [State.settle, Construction.Table.get?_set_self] at h
  exact (SlotState.ready.inj (Option.some.inj h)).symm

/-- The id of a declaration that is written next is that of nothing made before. -/
theorem Interned.ne_next (hs : Interned a s) (hsize : s.shared.ids.issued + 1 < UInt32.size)
    {o : Origin} {j : Id} (hj : Made a s o j) : j ≠ s.next := by
  rintro rfl
  have hle := hs.issued o _ hj
  rw [Session.next, toNat_next hsize] at hle
  exact absurd hle (Nat.not_succ_le_self _)

/-- A built-in shape is declared. -/
theorem Interned.settle_shape (hs : Interned a s) (hsize : s.shared.ids.issued + 1 < UInt32.size)
    {shape : Shape} (hbuilding : s.slots.get? (.shape shape) = some .building) :
    Interned a ((s.declared (.shape shape)).settle (.shape shape) (.ready s.next)) := by
  have hgrows := s.shared.grows_act (.declare (.shape shape))
  have hdeclared : (Declaration.shape shape).instruction s.next ∈
      (s.declared (.shape shape)).shared.declared := List.mem_append_right _ List.mem_cons_self
  refine hs.extend (within_settle (s := s.declared (.shape shape)) hbuilding) hgrows
    (hs.declarations.act _ hsize) (.shape shape) (fun o i ho => ?_) (fun shape' i h => ?_)
    fun id i h => .inl ?_
  · cases o with
    | shape shape' =>
      rcases ready_settle ho with heq | hold
      · obtain rfl := Key.shape.inj heq
        obtain rfl := eq_of_settle_self ho
        exact .inr ⟨rfl, (toNat_next hsize).le, fun o' j hj => hs.ne_next hsize hj⟩
      · exact .inl hold
    | struct id => exact .inl ⟨(ready_settle ho.1).resolve_left nofun, ho.2⟩
  · rcases ready_settle h with heq | hold
    · obtain rfl := Key.shape.inj heq
      obtain rfl := eq_of_settle_self h
      exact .inr hdeclared
    · exact .inl hold
  · exact (ready_settle h).resolve_left nofun

/-- A front-end type that is not laid out by the platform becomes a struct. -/
theorem Interned.settle_struct (hs : Interned a s) (hsize : s.shared.ids.issued + 1 < UInt32.size)
    {id : TypeId} {t : TypeDef} {members : List Id}
    (hbuilding : s.slots.get? (.type id) = some .building) (ht : a.type? id = some t)
    (hplain : t.isGeneric = false) (hstruct : t.representation? = none)
    (hmembers : List.Forall₂ (fun f m => s.slots.get? (.type f.type) = some (.ready m))
      (a.instanceFields t) members) :
    Interned a ((s.declared (.struct members)).settle (.type id) (.ready s.next)) := by
  set s' := (s.declared (.struct members)).settle (.type id) (.ready s.next) with hs'
  have hgrows := s.shared.grows_act (.declare (.struct members))
  have hwithin : s.Within s' := within_settle (s := s.declared (.struct members)) hbuilding
  have hself : s'.slots.get? (.type id) = some (.ready s.next) := Construction.Table.get?_set_self ..
  have hdeclared : (Declaration.struct members).instruction s.next ∈ s'.shared.declared :=
    List.mem_append_right _ List.mem_cons_self
  have hfields : ∀ f ∈ a.instanceFields t, ∃ type, Denotes a f.type type := fun f hf => by
    obtain ⟨m, -, hm⟩ := forall₂_mem_left hmembers hf
    obtain ⟨type, hdenotes, -⟩ := hs.types f.type m hm
    exact ⟨type, hdenotes⟩
  have hnonempty : Nonempty ValueType := ⟨.void⟩
  -- The types of the fields are chosen together: `Denotes` wants a function of the field.
  choose! types htypes using hfields
  refine hs.extend hwithin hgrows (hs.declarations.act _ hsize) (.struct id) (fun o i ho => ?_)
    (fun shape i h => .inl ?_) fun id' i h => ?_
  · cases o with
    | shape shape => exact .inl ((ready_settle ho).resolve_left nofun)
    | struct id' =>
      rcases ready_settle ho.1 with heq | hold
      · obtain rfl := Key.type.inj heq
        obtain rfl := eq_of_settle_self ho.1
        exact .inr ⟨rfl, (toNat_next hsize).le, fun o' j hj => hs.ne_next hsize hj⟩
      · exact .inl ⟨hold, ho.2⟩
  · exact (ready_settle h).resolve_left nofun
  · rcases ready_settle h with heq | hold
    · obtain rfl := Key.type.inj heq
      obtain rfl := eq_of_settle_self h
      refine .inr ⟨⟨.struct id', .struct ht hplain hstruct types htypes, hself, t, ht, hstruct⟩,
        fun t' ht' _ => ⟨members, ?_, hdeclared⟩⟩
      obtain rfl := Option.some.inj (ht.symm.trans ht')
      exact hmembers.imp fun f m hm => hwithin (.type f.type) m hm
    · exact .inl hold

/-- A front-end type that is laid out by the platform becomes what its representation asks for. -/
theorem Interned.settle_platform (hs : Interned a s) {id : TypeId} {t : TypeDef} {name : String}
    {type : ValueType} {i : Id} (hbuilding : s.slots.get? (.type id) = some .building)
    (ht : a.type? id = some t) (hname : t.representation? = some (some name))
    (hdenotes : Denotes a id type) (hmeans : Means a s type i) :
    Interned a (s.settle (.type id) (.ready i)) := by
  have hwithin : s.Within (s.settle (.type id) (.ready i)) := within_settle hbuilding
  have hother : ∀ t', a.type? id = some t' → t'.representation? ≠ none := fun t' ht' => by
    obtain rfl := Option.some.inj (ht.symm.trans ht')
    rw [hname]
    exact nofun
  refine hs.extend hwithin ⟨le_rfl, List.Subset.refl _⟩ hs.declarations (.struct id)
    (fun o j ho => .inl ?_) (fun shape j h => .inl ?_) fun id' j h => ?_
  · cases o with
    | shape shape => exact (ready_settle ho).resolve_left nofun
    | struct id' =>
      obtain ⟨hready, t', ht', hstruct⟩ := ho
      rcases ready_settle hready with heq | hold
      · obtain rfl := Key.type.inj heq
        exact absurd hstruct (hother t' ht')
      · exact ⟨hold, t', ht', hstruct⟩
  · exact (ready_settle h).resolve_left nofun
  · rcases ready_settle h with heq | hold
    · obtain rfl := Key.type.inj heq
      obtain rfl := eq_of_settle_self h
      exact .inr ⟨⟨type, hdenotes, hmeans.later hwithin⟩, fun t' ht' hstruct =>
        absurd hstruct (hother t' ht')⟩
    · exact .inl hold

end Slots

/-! ## The upkeep -/

/-- That types are declared once is kept up by an assembly. -/
def upkeep (a : Assembly) : Upkeep lowering Emission where
  recipes := recipes a
  inv s := s.shared.ids.issued < UInt32.size → Interned a s
  grows := Emission.Grows
  refl _ := ⟨le_rfl, List.Subset.refl _⟩
  trans _ _ _ h h' := ⟨h.issued.trans h'.issued, List.Subset.trans h.declared h'.declared⟩

section Factories

variable {a : Assembly} {s : Session} {id : TypeId} {t : TypeDef} {name : String}

/-- What is asked for is ready later. -/
theorem arrives_ask (k : Key) : (Task.ask (I := lowering) k).Arrives (upkeep a) s fun v s' =>
    (upkeep a).inv s' ∧ (upkeep a).Later s s' ∧ s'.slots.get? k = some (.ready v) :=
  .ask fun _ _ hlater hs' hready => ⟨hs', hlater, hready⟩

theorem arrives_type (id : TypeId) : (Construct.type a id).Arrives (upkeep a) s fun i s' =>
    (upkeep a).inv s' ∧ (upkeep a).Later s s' ∧ s'.slots.get? (.type id) = some (.ready i) :=
  .ofOption_bind fun _ _ => arrives_ask (.type id)

/-- A type that the platform lays out is that of the shape that it asks for. -/
theorem arrives_representation? (hbuilt : a.Built) (hsize : a.types.size ≤ UInt32.size)
    (ht : a.type? id = some t) (hplain : t.isGeneric = false)
    (hname : t.representation? = some (some name)) :
    (Construct.representation? a t name).Arrives (upkeep a) s fun resolved s' =>
      ∀ i, resolved = some i → s'.shared.ids.issued < UInt32.size →
        ∃ type, Denotes a id type ∧ Means a s' type i := by
  have hdenotes := fun hsupported => denotes_of_supported (a := a) ht hplain hname hsupported
  have hshape : ∀ (shape : Shape) (type : ValueType), (Representation.parse name).Supported a →
      (Representation.parse name).simple? = some type →
      (∀ s' i, Made a s' (.shape shape) i → Means a s' type i) →
      (some <$> Construct.shape shape).Arrives (upkeep a) s fun resolved s' =>
        ∀ i, resolved = some i → s'.shared.ids.issued < UInt32.size →
          -- Void, the integers and the floats ask for one shape and differ in nothing else.
          ∃ type, Denotes a id type ∧ Means a s' type i := by
    intro shape type hsupported hsimple hmeans
    refine .map (.mono (arrives_ask (.shape shape)) fun v s' ⟨_, _, hready⟩ i hi _ => ?_)
    obtain rfl := Option.some.inj hi
    obtain ⟨type', hsimple', htype⟩ | ⟨_, _, hvector, -⟩ := hdenotes hsupported
    · obtain rfl := Option.some.inj (hsimple.symm.trans hsimple')
      exact ⟨type, htype, hmeans s' v hready⟩
    · rw [hvector] at hsimple
      cases hsimple
  unfold Construct.representation?
  cases hparse : Representation.parse name with
  | unknown => exact .pure nofun
  | malformed => exact .fail
  | void =>
    exact hshape .void .void (by rw [hparse]; trivial) (by rw [hparse]; rfl) fun _ _ hmade => hmade
  | int width signed =>
    exact hshape (.int width signed) (.int width signed) (by rw [hparse]; trivial)
      (by rw [hparse]; rfl) fun _ _ hmade => hmade
  | float width =>
    exact hshape (.float width) (.float width) (by rw [hparse]; trivial) (by rw [hparse]; rfl)
      fun _ _ hmade => hmade
  | vector element size =>
    rw [hparse] at hdenotes
    refine .ofOption_bind fun e he => .bind (arrives_type e.id) fun j s₁ ⟨hs₁, _, hj⟩ => ?_
    refine .ofOption_bind fun n hn => ?_
    refine .map (.mono (arrives_ask (.shape (.vector j n))) fun v s₂ ⟨_, hlater, hready⟩ i hi hids => ?_)
    obtain rfl := Option.some.inj hi
    subst hn
    obtain ⟨_, hsimple, -⟩ | ⟨_, _, hvector, htype⟩ := hdenotes ⟨by rw [he]; rfl, rfl⟩
    · cases hsimple
    obtain ⟨rfl, hn⟩ := Representation.vector.inj hvector
    obtain rfl := Option.some.inj hn
    obtain ⟨type, helement, hmeans⟩ := (hs₁ (hlater.shared.issued.trans_lt hids)).types e.id j hj
    refine ⟨.vector type n, htype e type ?_ helement, j, hmeans.later hlater.ready, hready⟩
    rw [← hbuilt.findType?_eq hsize, he]

/-- A type is settled as what it denotes. -/
theorem arrives_buildType (hbuilt : a.Built) (hsize : a.types.size ≤ UInt32.size)
    (hs : (upkeep a).inv s) :
    ((recipes a).factory (.type id)).Arrives (upkeep a) s fun i s' => (upkeep a).inv s' →
      s'.slots.get? (.type id) = some .building →
        (upkeep a).inv (s'.settle (.type id) (.ready i)) := by
  refine .ofOption_bind fun t ht => ?_
  unfold Construct.buildType
  split
  · exact .fail
  · next hnot =>
    have hplain : t.isGeneric = false := by simpa using hnot
    split
    · next hstruct =>
      have hmembers := Upkeep.arrives_mapM (k := fun f : FieldDef => Construct.type a f.type)
        (P := fun f m s => s.slots.get? (.type f.type) = some (.ready m))
        (fun hlater hready => hlater.ready _ _ hready) (fun f (_ : f ∈ a.instanceFields t) s _ =>
          arrives_type f.type) hs
      refine .bind hmembers fun members s₁ hafter => .perform fun _ hbuilding hids => ?_
      obtain ⟨hs₁, -, hready⟩ := hafter
      have hinterned := hs₁ ((Nat.lt_succ_self _).trans hids)
      exact hinterned.settle_struct hids hbuilding ht hplain hstruct hready
    · exact .fail
    · next name hname =>
      refine .bind (arrives_representation? hbuilt hsize ht hplain hname) fun resolved s₁ hresolved => ?_
      refine .ofOption fun i hi hs₁ hbuilding hids => ?_
      obtain ⟨type, hdenotes, hmeans⟩ := hresolved i hi hids
      exact (hs₁ hids).settle_platform hbuilding ht hname hdenotes hmeans

/-- What is constructed keeps types declared once. -/
theorem upkeep_lawful (hbuilt : a.Built) (hsize : a.types.size ≤ UInt32.size) :
    (upkeep a).Lawful := by
  have hgrows : ∀ (e : Emission) (action : Action), e.Grows (e.act action).2 := Emission.grows_act
  have hother : ∀ {k : Key} {s : Session} {slot : SlotState k.Value}, (upkeep a).inv s →
      s.slots.get? k = none ∨ s.slots.get? k = some .building →
      ((∀ v, slot ≠ .ready v) ∨ ((∀ shape, k ≠ .shape shape) ∧ ∀ id, k ≠ .type id)) →
        (upkeep a).inv (s.settle k slot) :=
    fun hs hold hnot hids => (hs hids).settle_other hold hnot
  constructor
  case act =>
    intro action s hs
    refine ⟨fun hids => ?_, hgrows s.shared action⟩
    have hinterned := hs ((hgrows s.shared action).issued.trans_lt hids)
    exact hinterned.congr (fun _ _ h => h) (hgrows s.shared action) (hinterned.declarations.act _ hids)
      (fun _ _ h => h) fun _ _ h => h
  case building => exact fun k s hs hnew => hother hs (.inl hnew) (.inl nofun)
  case failed => exact fun k s hs hbuilding => hother hs (.inr hbuilding) (.inl nofun)
  case factory =>
    intro k s hs hbuilding
    cases k with
    | type id => exact arrives_buildType hbuilt hsize hs
    | shape shape =>
      refine .perform fun _ _ hids => ?_
      exact (hs ((Nat.lt_succ_self _).trans hids)).settle_shape hids hbuilding
    | _ =>
      refine .mono (.trivially _ s) fun v s' _ hs' hbuilding' => ?_
      exact hother hs' (.inr hbuilding') (.inr ⟨nofun, nofun⟩)

end Factories

end ShaderLowering
