import Mathlib.Algebra.GroupWithZero.Nat
import Mathlib.Data.List.Perm.Subperm
import Mathlib.Data.List.Sections
import ShaderLowering.Proofs.Sessions.Writing

/-!
# How deep constructions nest

Constructions that are under way at one time are of different keys, each asked for by the one around it.
All but the outermost are then of listed functions and listed types, of at most one global variable and of
at most one shape or constant.  There are only so many (`Assembly.places`), and the depth of an assembly is
more than that (`regime_bounded`), so no construction is cut off: what is carried out in a session and obeys
the regime ends as the keys that it asks for let it (`Session.run_ends`).
-/

namespace ShaderLowering

open Construction (Regime Task)

/-! ## Places in a chain -/

namespace Key

/-- What a key takes up in a chain of constructions: all variables take up the same place, and so do all
shapes and constants. -/
def place : Key → Key
  | .variable _ => .variable (EntityId.ofIndex 0)
  | .shape _ | .constant .. => .shape .void
  | k => k

theorem stage_place (k : Key) : k.place.stage = k.stage := by
  cases k <;> rfl

/-- A key comes later in a chain than another one, and shares no place with it unless they are the same. -/
def Below (k' k : Key) : Prop :=
  k'.stage ≤ k.stage ∧ (k'.stage = k.stage → k'.place = k' ∧ k.place = k)

theorem Below.trans {k k' k'' : Key} (h : k''.Below k') (h' : k'.Below k) : k''.Below k := by
  refine ⟨h.1.trans h'.1, fun hsame => ?_⟩
  have hfirst : k''.stage = k'.stage := le_antisymm h.1 (hsame ▸ h'.1)
  exact ⟨(h.2 hfirst).1, (h'.2 (hfirst ▸ hsame)).2⟩

instance : IsTrans Key Below :=
  ⟨fun _ _ _ => .trans⟩

theorem Below.eq_of_place {k k' : Key} (h : k'.Below k) (hplace : k'.place = k.place) : k' = k := by
  have hstage : k'.stage = k.stage := by rw [← stage_place k', hplace, stage_place]
  obtain ⟨hk', hk⟩ := h.2 hstage
  rw [← hk', hplace, hk]

end Key

variable {a : Assembly} {k k' : Key}

theorem Asks.below (h : Asks a k k') : k'.Below k := by
  cases h with
  | needed hneeds _ => cases hneeds <;> simp [Key.Below, Key.stage, Key.place]
  | leaf hstage hleaf =>
    refine ⟨hleaf ▸ Nat.zero_le _, fun hsame => ?_⟩
    omega

/-- All constructions under way but the outermost one are asked for. -/
theorem asked_of_mem_dropLast {stack : List Key} (hchain : (regime a).Chain stack)
    (hk : k' ∈ stack.dropLast) : ∃ k, Asks a k k' := by
  induction stack with
  | nil => cases hk
  | cons first stack ih =>
    cases stack with
    | nil => cases hk
    | cons next stack =>
      obtain ⟨hasks, hchain⟩ := List.isChain_cons_cons.mp hchain
      rcases List.mem_cons.mp hk with rfl | hk
      · exact ⟨next, hasks⟩
      · exact ih hchain hk

/-! ## The places of an assembly -/

namespace Assembly

/-- The types that are defined. -/
def typeIds (a : Assembly) : List TypeId :=
  (List.range a.types.size).map EntityId.ofIndex

/-- The function keys of a method with defined types only. -/
def keysOf (a : Assembly) (m : MethodDef) : List FunctionKey :=
  (List.replicate m.effectiveParameters.length a.typeIds).sections.map (FunctionKey.mk m.id)

/-- The places that can be taken in a chain of constructions below the outermost one. -/
def places (a : Assembly) : List Key :=
  a.methods.toList.flatMap (fun m => (a.keysOf m).map .function) ++ a.typeIds.map .type ++
    [Key.place (.variable (EntityId.ofIndex 0)), Key.place (.shape .void)]

theorem mem_typeIds {id : TypeId} (h : (a.type? id).isSome) : id ∈ a.typeIds := by
  obtain ⟨t, ht⟩ := Option.isSome_iff_exists.mp h
  obtain ⟨hindex, -⟩ := Array.getElem?_eq_some_iff.mp ht
  exact List.mem_map.mpr ⟨id.index, List.mem_range.mpr hindex, EntityId.ofIndex_index id⟩

theorem mem_keysOf {m : MethodDef} {key : FunctionKey} (hmethod : key.method = m.id)
    (hlength : key.parameters.length = m.effectiveParameters.length)
    (htypes : ∀ id ∈ key.parameters, (a.type? id).isSome) : key ∈ a.keysOf m := by
  refine List.mem_map.mpr ⟨key.parameters, List.mem_sections.mpr ?_, by rw [← hmethod]⟩
  rw [← hlength, List.forall₂_iff_get]
  refine ⟨by simp, fun i hi hi' => ?_⟩
  simpa using mem_typeIds (htypes _ (List.getElem_mem hi))

theorem length_sections_replicate {α : Type} (xs : List α) (n : Nat) :
    (List.replicate n xs).sections.length = xs.length ^ n := by
  induction n with
  | zero => rfl
  | succ n ih =>
    rw [List.replicate_succ, List.sections, List.length_flatMap]
    simp [ih, Nat.pow_succ]

theorem length_keysOf (m : MethodDef) : (a.keysOf m).length = a.keyCount m := by
  simp [keysOf, keyCount, length_sections_replicate, typeIds]

theorem length_places (a : Assembly) : a.places.length + 2 = a.depth := by
  have hfold : ∀ (methods : List MethodDef) (n : Nat),
      methods.foldr (fun m total => a.keyCount m + total) n = (methods.map a.keyCount).sum + n := by
    intro methods n
    induction methods with
    | nil => simp
    | cons m methods ih => simp [ih, Nat.add_assoc]
  have hcount : (fun m => ((a.keysOf m).map Key.function).length) = a.keyCount := by
    funext m
    rw [List.length_map, length_keysOf]
  rw [places, depth, hfold, List.length_append, List.length_append, List.length_flatMap, hcount]
  simp [typeIds, Nat.add_assoc]

end Assembly

/-- What is asked for takes up a place of the assembly. -/
theorem Asks.place_mem (hnumbered : a.Numbered) (h : Asks a k k') : k'.place ∈ a.places := by
  -- A leaf is a shape or a constant; every other key is listed by what asks for it.
  have hlisted : k'.Listed a := by
    cases h with
    | needed _ hlisted => exact hlisted
    | leaf _ hleaf =>
      cases k' with
      | shape s => trivial
      | constant type bits => trivial
      | _ => simp [Key.stage] at hleaf
  rw [Assembly.places]
  cases k' with
  | type id =>
    refine List.mem_append_left _ (List.mem_append_right _ (List.mem_map_of_mem ?_))
    exact Assembly.mem_typeIds hlisted
  | function key =>
    obtain ⟨m, hm, hlength, htypes⟩ := hlisted
    have hkey : key ∈ a.keysOf m :=
      Assembly.mem_keysOf (hnumbered _ m hm).symm hlength htypes
    refine List.mem_append_left _ (List.mem_append_left _ (List.mem_flatMap.mpr ⟨m, ?_, ?_⟩))
    · exact Array.mem_toList_iff.mpr (Array.mem_of_getElem? hm)
    · exact List.mem_map_of_mem hkey
  | «variable» field => simp [Key.place]
  | shape s => simp [Key.place]
  | constant type bits => simp [Key.place]

/-- Constructions nest less deep than the depth of the assembly. -/
theorem regime_bounded (hnumbered : a.Numbered) : (regime a).Bounded (a.places.length + 1) := by
  intro stack hchain hnodup
  have hbelow : stack.Pairwise Key.Below :=
    List.isChain_iff_pairwise.mp (hchain.imp fun _ _ hasks => hasks.below)
  have hplaces : (stack.map Key.place).Nodup := by
    refine List.pairwise_map.mpr ((hbelow.and hnodup).imp fun h hplace => ?_)
    exact h.2 (h.1.eq_of_place hplace)
  have hsubset : stack.dropLast.map Key.place ⊆ a.places := by
    intro place hplace
    obtain ⟨k', hk', rfl⟩ := List.mem_map.mp hplace
    obtain ⟨k, hasks⟩ := asked_of_mem_dropLast hchain hk'
    exact hasks.place_mem hnumbered
  have hinner : (stack.dropLast.map Key.place).Nodup :=
    hplaces.sublist ((List.dropLast_sublist stack).map _)
  have hlength := (List.subperm_of_subset hinner hsubset).length_le
  rw [List.length_map, List.length_dropLast] at hlength
  omega

/-- A task that obeys the regime of an assembly ends as the keys that it asks for let it. -/
theorem Session.run_ends (hnumbered : a.Numbered) {α : Type} {s : Session} {asked had : Key → Prop}
    {bad : Prop} {t : Construct α} {R : α → Prop} (hknown : ∀ k, asked k → (regime a).known k)
    (ht : Task.Obeys (I := lowering) asked had bad t R) (hs : (regime a).Tidy [] s)
    (hhad : ∀ k v, Constructible a k → (s.run a t).2.slots.get? k = some (.ready v) → had k) :
    (regime a).Ends [] asked bad s (fun v _ => R v) (s.run a t) := by
  have hdepth : a.places.length + 1 < a.depth := by
    have hlength := a.length_places
    omega
  exact Regime.execute_ends (regime_lawful hnumbered) (regime_bounded hnumbered) hdepth hknown ht hs hhad

end ShaderLowering
