import Mathlib.Data.List.Nodup
import Mathlib.Data.List.Perm.Subperm
import Mathlib.Data.Nat.Basic
import Mathlib.Order.Basic
import ShaderLowering.Proofs.Lowering.Names

/-!
# The types that stand for front-end types

The type of a vector is found through that of its elements, and elements are named, so nothing in an
assembly keeps a vector from being among its own elements.  `Assembly.valueType?` looks no deeper than
there are types.  That is deep enough (`valueType?_of_within`): every level of a type that is found is
another front-end type (`exists_nodup_of_within`).  So `valueType?` obeys the equations that one would
write down for it (`valueType?_struct`, `valueType?_simple`, `valueType?_vector`).
-/

namespace ShaderLowering

open Spirv (Word)

/-- The type that a representation asks for, if that does not depend on other types. -/
def Representation.simple? : Representation → Option ValueType
  | .void => some .void
  | .int width signed => some (.int width signed)
  | .float width => some (.float width)
  | _ => none

/-- The number of levels of a type. -/
def ValueType.levels : ValueType → Nat
  | .vector element _ => element.levels + 1
  | _ => 1

theorem Representation.levels_of_simple? {r : Representation} {type : ValueType}
    (h : r.simple? = some type) : type.levels = 1 := by
  cases r <;> cases h <;> rfl

namespace Assembly

variable {a : Assembly} {id : TypeId} {t e : TypeDef} {name element : String} {n m : Nat}
  {size : Word} {type : ValueType}

theorem valueTypeWithin?_struct (ht : a.type? id = some t) (hstruct : t.representation? = none) :
    a.valueTypeWithin? (n + 1) id = some (.struct id) := by
  rw [valueTypeWithin?, ht]
  simp [hstruct]

theorem valueTypeWithin?_simple (ht : a.type? id = some t)
    (hname : t.representation? = some (some name))
    (hsimple : (Representation.parse name).simple? = some type) :
    a.valueTypeWithin? (n + 1) id = some type := by
  rw [valueTypeWithin?, ht]
  cases hparse : Representation.parse name <;>
    simp_all [Representation.simple?]

theorem valueTypeWithin?_vector (ht : a.type? id = some t)
    (hname : t.representation? = some (some name))
    (hparse : Representation.parse name = .vector element (some size))
    (helement : a.findType? element = some e) (htype : a.valueTypeWithin? n e.id = some type) :
    a.valueTypeWithin? (n + 1) id = some (.vector type size) := by
  rw [valueTypeWithin?, ht]
  simp [hname, hparse, helement, htype]

/-- There is no other type than those of the equations. -/
theorem valueTypeWithin?_cases (h : a.valueTypeWithin? (n + 1) id = some type) :
    ∃ t, a.type? id = some t ∧ ((t.representation? = none ∧ type = .struct id) ∨
      ∃ name, t.representation? = some (some name) ∧
        ((Representation.parse name).simple? = some type ∨ ∃ element size e inner,
          Representation.parse name = .vector element (some size) ∧
          a.findType? element = some e ∧ a.valueTypeWithin? n e.id = some inner ∧
          type = .vector inner size)) := by
  rw [valueTypeWithin?] at h
  obtain ⟨t, ht, h⟩ := Option.bind_eq_some_iff.mp h
  refine ⟨t, ht, ?_⟩
  split at h
  · next hstruct => exact .inl ⟨hstruct, (Option.some.inj h).symm⟩
  · cases h
  · next name hname =>
    refine .inr ⟨name, hname, ?_⟩
    split at h
    case h_1 hparse => exact .inl (by rw [hparse]; exact h)
    case h_2 hparse => exact .inl (by rw [hparse]; exact h)
    case h_3 hparse => exact .inl (by rw [hparse]; exact h)
    case h_4 element size hparse =>
      obtain ⟨e, helement, h⟩ := Option.bind_eq_some_iff.mp h
      obtain ⟨inner, hinner, h⟩ := Option.bind_eq_some_iff.mp h
      obtain ⟨size, rfl, h⟩ := Option.bind_eq_some_iff.mp h
      exact .inr ⟨element, size, e, inner, hparse, helement, hinner, (Option.some.inj h).symm⟩
    case h_5 => cases h
    case h_6 => cases h

/-- A type that is found is found as well if one looks deeper. -/
theorem valueTypeWithin?_mono (h : a.valueTypeWithin? n id = some type) (hle : n ≤ m) :
    a.valueTypeWithin? m id = some type := by
  induction n generalizing m id type with
  | zero => cases h
  | succ n ih =>
    obtain ⟨m, rfl⟩ : ∃ k, m = k + 1 := Nat.exists_eq_succ_of_ne_zero (by omega)
    obtain ⟨t, ht, ⟨hstruct, rfl⟩ | ⟨name, hname, hsimple |
      ⟨element, size, e, inner, hparse, helement, hinner, rfl⟩⟩⟩ := valueTypeWithin?_cases h
    · exact valueTypeWithin?_struct ht hstruct
    · exact valueTypeWithin?_simple ht hname hsimple
    · exact valueTypeWithin?_vector ht hname hparse helement
        (ih hinner (Nat.le_of_succ_le_succ hle))

/-- One need not look deeper than a type has levels. -/
theorem valueTypeWithin?_levels (h : a.valueTypeWithin? n id = some type) :
    a.valueTypeWithin? type.levels id = some type := by
  induction n generalizing id type with
  | zero => cases h
  | succ n ih =>
    obtain ⟨t, ht, ⟨hstruct, rfl⟩ | ⟨name, hname, hsimple |
      ⟨element, size, e, inner, hparse, helement, hinner, rfl⟩⟩⟩ := valueTypeWithin?_cases h
    · exact valueTypeWithin?_struct ht hstruct
    · rw [Representation.levels_of_simple? hsimple]
      exact valueTypeWithin?_simple ht hname hsimple
    · exact valueTypeWithin?_vector ht hname hparse helement (ih hinner)

/-- The levels of a type are different front-end types.  They are different because each of them has
fewer levels than those above it. -/
theorem exists_nodup_of_within (h : a.valueTypeWithin? n id = some type) :
    ∃ ids : List TypeId, ids.Nodup ∧ ids.length = type.levels ∧ ∀ j ∈ ids,
      (a.type? j).isSome ∧ ∃ u, a.valueTypeWithin? n j = some u ∧ u.levels ≤ type.levels := by
  induction n generalizing id type with
  | zero => cases h
  | succ n ih =>
    obtain ⟨t, ht, hcases⟩ := valueTypeWithin?_cases h
    have hhere : (a.type? id).isSome := by rw [ht]; rfl
    have hsingle : type.levels = 1 → ∃ ids : List TypeId, ids.Nodup ∧
        ids.length = type.levels ∧ ∀ j ∈ ids, (a.type? j).isSome ∧
          ∃ u, a.valueTypeWithin? (n + 1) j = some u ∧ u.levels ≤ type.levels := by
      intro hone
      refine ⟨[id], List.nodup_singleton id, hone.symm, fun j hj => ?_⟩
      obtain rfl := List.mem_singleton.mp hj
      exact ⟨hhere, type, h, le_rfl⟩
    obtain ⟨hstruct, rfl⟩ | ⟨name, hname, hsimple |
      ⟨element, size, e, inner, hparse, helement, hinner, rfl⟩⟩ := hcases
    · exact hsingle rfl
    · exact hsingle (Representation.levels_of_simple? hsimple)
    · obtain ⟨ids, hnodup, hlength, hids⟩ := ih hinner
      refine ⟨id :: ids, List.nodup_cons.mpr ⟨fun hmem => ?_, hnodup⟩, ?_, fun j hj => ?_⟩
      · -- The vector has more levels than its elements have.
        obtain ⟨-, u, hu, hle⟩ := hids id hmem
        rw [valueTypeWithin?_mono hu n.le_succ] at h
        obtain rfl := Option.some.inj h
        exact absurd hle (Nat.not_succ_le_self inner.levels)
      · rw [List.length_cons, hlength]
        rfl
      · obtain rfl | hj := List.mem_cons.mp hj
        · exact ⟨hhere, _, h, le_rfl⟩
        · obtain ⟨hsome, u, hu, hle⟩ := hids j hj
          exact ⟨hsome, u, valueTypeWithin?_mono hu n.le_succ, hle.trans inner.levels.le_succ⟩

/-- A type has no more levels than there are types. -/
theorem levels_le_size (h : a.valueTypeWithin? n id = some type) : type.levels ≤ a.types.size := by
  obtain ⟨ids, hnodup, hlength, hids⟩ := exists_nodup_of_within h
  have hindices : (ids.map EntityId.index).Nodup :=
    hnodup.map fun _ _ => EntityId.index_injective
  have hsubset : ids.map EntityId.index ⊆ List.range a.types.size := by
    intro i hi
    obtain ⟨j, hj, rfl⟩ := List.mem_map.mp hi
    obtain ⟨t, ht⟩ := Option.isSome_iff_exists.mp (hids j hj).1
    obtain ⟨hlt, -⟩ := Array.getElem?_eq_some_iff.mp ht
    exact List.mem_range.mpr hlt
  have hle := (hindices.subperm hsubset).length_le
  rwa [List.length_map, List.length_range, hlength] at hle

/-- To look as deep as there are types is deep enough. -/
theorem valueType?_of_within (h : a.valueTypeWithin? n id = some type) :
    a.valueType? id = some type :=
  valueTypeWithin?_mono (valueTypeWithin?_levels h) (levels_le_size h)

theorem valueType?_struct (ht : a.type? id = some t) (hstruct : t.representation? = none) :
    a.valueType? id = some (.struct id) :=
  valueType?_of_within (n := 1) (valueTypeWithin?_struct ht hstruct)

theorem valueType?_simple (ht : a.type? id = some t)
    (hname : t.representation? = some (some name))
    (hsimple : (Representation.parse name).simple? = some type) :
    a.valueType? id = some type :=
  valueType?_of_within (n := 1) (valueTypeWithin?_simple ht hname hsimple)

theorem valueType?_vector (ht : a.type? id = some t)
    (hname : t.representation? = some (some name))
    (hparse : Representation.parse name = .vector element (some size))
    (helement : a.findType? element = some e) (htype : a.valueType? e.id = some type) :
    a.valueType? id = some (.vector type size) :=
  valueType?_of_within (valueTypeWithin?_vector ht hname hparse helement htype)

theorem valueType_eq (h : a.valueType? id = some type) : a.valueType id = type := by
  rw [valueType, h, Option.getD_some]

end Assembly

end ShaderLowering
