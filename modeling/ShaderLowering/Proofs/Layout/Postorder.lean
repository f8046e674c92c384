import Mathlib.Data.List.Basic
import ShaderLowering.Layout.Placement

/-!
# Depth-first postorder

What `postorder` writes down are the nodes that it still finds unvisited and the nodes that it is
about to leave, each of them once (`mem_of_mem_postorder`, `nodup_postorder`); every pending node
is among them (`mem_postorder_of_enter`, `mem_postorder_of_leave`).  So a placement, whose walk is
asked to enter everything, is a permutation of all positions (`placement_perm`).
-/

namespace ShaderLowering.Layout

open Spirv

/-- The nodes that a stack of visits is about to leave. -/
def leaving : List Visit → List Nat
  | [] => []
  | .enter _ :: pending => leaving pending
  | .leave node :: pending => node :: leaving pending

@[simp] theorem leaving_append (p q : List Visit) : leaving (p ++ q) = leaving p ++ leaving q := by
  induction p with
  | nil => rfl
  | cons v p ih => cases v <;> simp [leaving, ih]

@[simp] theorem leaving_map_enter (nodes : List Nat) : leaving (nodes.map .enter) = [] := by
  induction nodes with
  | nil => rfl
  | cons n nodes ih => simp [leaving, ih]

variable {next : Nat → List Nat}

theorem mem_postorder_of_leave {unvisited : List Nat} {pending : List Visit} {n : Nat}
    (h : .leave n ∈ pending) : n ∈ postorder next unvisited pending := by
  fun_induction postorder next unvisited pending with
  | case1 => simp at h
  | case2 unvisited node pending ih =>
    rcases List.mem_cons.mp h with hn | h
    · cases hn
      exact List.mem_cons_self
    · exact List.mem_cons_of_mem _ (ih h)
  | case3 unvisited node pending hmem ih =>
    rcases List.mem_cons.mp h with hn | h
    · cases hn
    · exact ih (by simp [h])
  | case4 unvisited node pending hmem ih =>
    rcases List.mem_cons.mp h with hn | h
    · cases hn
    · exact ih h

theorem mem_postorder_of_enter {unvisited : List Nat} {pending : List Visit} {n : Nat}
    (h : .enter n ∈ pending) (hn : n ∈ unvisited) : n ∈ postorder next unvisited pending := by
  fun_induction postorder next unvisited pending with
  | case1 => simp at h
  | case2 unvisited node pending ih =>
    rcases List.mem_cons.mp h with heq | h
    · cases heq
    · exact List.mem_cons_of_mem _ (ih h hn)
  | case3 unvisited node pending hmem ih =>
    -- Entering the node itself schedules that it is left.
    by_cases hnode : n = node
    · subst hnode
      exact mem_postorder_of_leave (by simp)
    · refine ih ?_ ((List.mem_erase_of_ne hnode).mpr hn)
      rcases List.mem_cons.mp h with heq | h
      · cases heq
        exact absurd rfl hnode
      · simp [h]
  | case4 unvisited node pending hmem ih =>
    rcases List.mem_cons.mp h with heq | h
    · cases heq
      exact absurd hn hmem
    · exact ih h hn

theorem mem_of_mem_postorder {unvisited : List Nat} {pending : List Visit} {n : Nat}
    (h : n ∈ postorder next unvisited pending) : n ∈ unvisited ∨ n ∈ leaving pending := by
  fun_induction postorder next unvisited pending with
  | case1 => simp at h
  | case2 unvisited node pending ih =>
    rcases List.mem_cons.mp h with rfl | h
    · exact .inr List.mem_cons_self
    · exact (ih h).imp_right (List.mem_cons_of_mem _)
  | case3 unvisited node pending hmem ih =>
    rcases ih h with h | h
    · exact .inl (List.mem_of_mem_erase h)
    · simp only [leaving_append, leaving_map_enter, leaving, List.nil_append] at h
      rcases List.mem_cons.mp h with rfl | h
      · exact .inl hmem
      · exact .inr h
  | case4 unvisited node pending hmem ih => exact ih h

theorem nodup_postorder {unvisited : List Nat} {pending : List Visit}
    (h : (unvisited ++ leaving pending).Nodup) : (postorder next unvisited pending).Nodup := by
  fun_induction postorder next unvisited pending with
  | case1 => exact List.nodup_nil
  | case2 unvisited node pending ih =>
    have hmoved : (node :: (unvisited ++ leaving pending)).Nodup := List.perm_middle.nodup h
    rw [List.nodup_cons] at hmoved ⊢
    refine ⟨fun hmem => hmoved.1 ?_, ih hmoved.2⟩
    exact List.mem_append.mpr (mem_of_mem_postorder hmem)
  | case3 unvisited node pending hmem ih =>
    apply ih
    simp only [leaving_append, leaving_map_enter, leaving, List.nil_append]
    -- The entered node moves from the unvisited ones to those about to be left.
    have hperm : (unvisited.erase node ++ node :: leaving pending).Perm
        (unvisited ++ leaving pending) :=
      List.perm_middle.trans ((List.perm_cons_erase hmem).symm.append_right _)
    exact hperm.symm.nodup h
  | case4 unvisited node pending hmem ih => exact ih h

/-- A placement holds every position once. -/
theorem placement_perm (table : OpTable) (declarations : List Instruction) (used : List Word) :
    (placement table declarations used).Perm (List.range declarations.length) := by
  unfold placement
  simp only
  rw [List.perm_ext_iff_of_nodup (nodup_postorder (by simp [List.nodup_range])) List.nodup_range]
  intro n
  constructor
  · intro h
    simpa using mem_of_mem_postorder h
  · intro h
    exact mem_postorder_of_enter (by simp [List.mem_range.mp h]) h

theorem filterMap_getElem?_range {α : Type} (as : List α) :
    (List.range as.length).filterMap (as[·]?) = as := by
  induction as with
  | nil => rfl
  | cons a as ih =>
    rw [List.length_cons, List.range_succ_eq_map, List.filterMap_cons, List.filterMap_map]
    simpa using ih

/-- Placing declarations neither loses nor doubles one. -/
theorem placed_perm (table : OpTable) (declarations : List Instruction) (used : List Word) :
    (placed table declarations used).Perm declarations := by
  have h := (placement_perm table declarations used).filterMap (declarations[·]?)
  rwa [filterMap_getElem?_range] at h

end ShaderLowering.Layout
