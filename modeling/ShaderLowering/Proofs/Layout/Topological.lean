import Mathlib.Tactic.Tauto
import ShaderLowering.Proofs.Layout.Placement

/-!
# Placed declarations come after what they refer to

If references lead downwards, from a declaration to itself or to declarations of a lower rank, then the
depth-first postorder is a topological order: a node comes after its other successors
(`mem_before_of_next`), and so does a declaration after the declarations that it refers to
(`mem_before_of_placed`).

The walk over one list of visits and then another is the walk over the first and then, with what that
has visited out of the way, the walk over the second (`postorder_append`).  So what is written down
between entering a node and leaving it is the walk over its successors alone.
-/

namespace ShaderLowering.Layout

open Spirv

/-! ## The walk -/

section Walk

variable {next : Nat → List Nat} {unvisited : List Nat} {pending : List Visit} {m n : Nat}

/-- The walk over visits and then over others. -/
theorem postorder_append (hnodup : unvisited.Nodup) (hleaving : ∀ n ∈ leaving pending, n ∉ unvisited)
    (more : List Visit) :
    postorder next unvisited (pending ++ more) = postorder next unvisited pending ++
      postorder next (unvisited.filter (· ∉ postorder next unvisited pending)) more := by
  fun_induction postorder next unvisited pending with
  | case1 => simp
  | case2 unvisited node pending ih =>
    have hnode : node ∉ unvisited := hleaving node List.mem_cons_self
    -- A node that is left was removed when it was entered, so writing it down removes nothing more.
    have hsame : ∀ walk : List Nat, unvisited.filter (· ∉ node :: walk) =
        unvisited.filter (· ∉ walk) := fun walk => by
      refine List.filter_congr fun m hm => ?_
      have hne : m ≠ node := fun heq => hnode (heq ▸ hm)
      simp [hne]
    rw [List.cons_append, postorder, ih hnodup fun n hn => hleaving n (List.mem_cons_of_mem _ hn),
      hsame, List.cons_append]
  | case3 unvisited node pending hmem ih =>
    -- A node that is entered is removed, but it is also written down later.
    have hsame : ∀ walk : List Nat, node ∈ walk →
        (unvisited.erase node).filter (· ∉ walk) = unvisited.filter (· ∉ walk) := by
      intro walk hwalk
      rw [hnodup.erase_eq_filter, List.filter_filter]
      refine List.filter_congr fun m _ => ?_
      by_cases hne : m = node
      · simp [hne, hwalk]
      · simp [hne]
    have hleaving' : ∀ n ∈ leaving ((next node).map Visit.enter ++ .leave node :: pending),
        n ∉ unvisited.erase node := by
      intro n hn
      simp only [leaving_append, leaving_map_enter, leaving, List.nil_append] at hn
      rcases List.mem_cons.mp hn with rfl | hn
      · exact hnodup.not_mem_erase
      · exact fun hin => hleaving n hn (List.mem_of_mem_erase hin)
    have hwalk := ih (hnodup.erase node) hleaving'
    rw [hsame _ (mem_postorder_of_leave (by simp))] at hwalk
    rw [List.cons_append, postorder, if_pos hmem, ← hwalk]
    simp
  | case4 unvisited node pending hmem ih =>
    rw [List.cons_append, postorder, if_neg hmem]
    exact ih hnodup hleaving

/-- Between entering an unvisited node and leaving it, the walk writes down what it finds below the
node. -/
theorem postorder_enter (hnodup : unvisited.Nodup) (hn : n ∈ unvisited) (pending : List Visit) :
    postorder next unvisited (.enter n :: pending) =
      postorder next (unvisited.erase n) ((next n).map .enter) ++
        n :: postorder next ((unvisited.erase n).filter
          (· ∉ postorder next (unvisited.erase n) ((next n).map .enter))) pending := by
  rw [postorder, if_pos hn, postorder_append (hnodup.erase n) (by simp), postorder]

variable {rank : Nat → Nat} (hrank : ∀ n, ∀ m ∈ next n, m = n ∨ rank m < rank n)

include hrank

/-- What is written down is of no higher rank than what is pending. -/
theorem rank_of_mem_postorder (h : n ∈ postorder next unvisited pending) :
    ∃ v ∈ pending, n = v.node ∨ rank n < rank v.node := by
  fun_induction postorder next unvisited pending with
  | case1 => cases h
  | case2 unvisited node pending ih =>
    rcases List.mem_cons.mp h with rfl | h
    · exact ⟨_, List.mem_cons_self, .inl rfl⟩
    · obtain ⟨v, hv, hle⟩ := ih h
      exact ⟨v, List.mem_cons_of_mem _ hv, hle⟩
  | case3 unvisited node pending hmem ih =>
    obtain ⟨v, hv, hle⟩ := ih h
    rcases List.mem_append.mp hv with hv | hv
    · -- A successor of the node, whose rank is no higher than that of the node.
      obtain ⟨m, hm, rfl⟩ := List.mem_map.mp hv
      refine ⟨_, List.mem_cons_self, ?_⟩
      rcases hrank node m hm with rfl | hlt
      · exact hle
      · rcases hle with rfl | hle
        · exact .inr hlt
        · exact .inr (Nat.lt_trans hle hlt)
    · rcases List.mem_cons.mp hv with rfl | hv
      · exact ⟨_, List.mem_cons_self, hle⟩
      · exact ⟨v, List.mem_cons_of_mem _ hv, hle⟩
  | case4 unvisited node pending hmem ih =>
    obtain ⟨v, hv, hle⟩ := ih h
    exact ⟨v, List.mem_cons_of_mem _ hv, hle⟩

/-- What is below a node does not lead back to it. -/
theorem ne_of_below {k : Nat} (hn : n ∈ postorder next unvisited ((next k).map .enter))
    (hm : m ∈ next n) (hne : m ≠ n) : m ≠ k := by
  rintro rfl
  obtain ⟨v, hv, hle⟩ := rank_of_mem_postorder hrank hn
  obtain ⟨i, hi, rfl⟩ := List.mem_map.mp hv
  have hup : rank m < rank n := (hrank n m hm).resolve_left hne
  have hdown : i = m ∨ rank i < rank m := hrank m i hi
  have hlow : n = i ∨ rank n < rank i := hle
  rcases hlow with rfl | hlow
  · exact hdown.elim (fun heq => hne heq.symm) fun hlt => absurd hlt (Nat.lt_asymm hup)
  · rcases hdown with rfl | hdown <;> omega

/-- A node comes after its other successors, as far as they are unvisited. -/
theorem mem_before_of_next {nodes l l' : List Nat} (hnodup : unvisited.Nodup)
    (hwalk : postorder next unvisited (nodes.map .enter) = l ++ n :: l') (hm : m ∈ next n)
    (hne : m ≠ n) (hunvisited : m ∈ unvisited) : m ∈ l := by
  induction hsize : unvisited.length using Nat.strong_induction_on
    generalizing unvisited nodes l l' m n with
  | _ size ih =>
    subst hsize
    induction nodes with
    | nil => simp [postorder] at hwalk
    | cons node nodes ihnodes =>
      rw [List.map_cons] at hwalk
      by_cases hmem : node ∈ unvisited
      case neg =>
        rw [postorder, if_neg hmem] at hwalk
        exact ihnodes hwalk
      rw [postorder_enter hnodup hmem] at hwalk
      set below := postorder next (unvisited.erase node) ((next node).map .enter) with hbelow
      set rest := (unvisited.erase node).filter (· ∉ below) with hrest
      have hshort : (unvisited.erase node).length < unvisited.length := by
        rw [List.length_erase_of_mem hmem]
        exact Nat.sub_lt (List.length_pos_of_mem hmem) Nat.one_pos
      have hhere : n = node → m ∈ below := by
        rintro rfl
        exact mem_postorder_of_enter (List.mem_map_of_mem hm)
          ((List.mem_erase_of_ne hne).mpr hunvisited)
      rcases List.append_eq_append_iff.mp hwalk with ⟨before, rfl, hlater⟩ | ⟨after, hfirst, hlater⟩
      · cases before with
        | nil =>
          rw [List.append_nil]
          exact hhere (List.cons.inj hlater).1.symm
        | cons first before =>
          obtain ⟨rfl, htail⟩ := List.cons.inj hlater
          by_cases hmbelow : m ∈ below
          · exact List.mem_append_left _ hmbelow
          refine List.mem_append_right _ ?_
          by_cases hmnode : m = node
          · exact hmnode ▸ List.mem_cons_self
          refine List.mem_cons_of_mem _ ?_
          have hmrest : m ∈ rest := List.mem_filter.mpr
            ⟨(List.mem_erase_of_ne hmnode).mpr hunvisited, by simpa using hmbelow⟩
          have hshorter : rest.length < unvisited.length :=
            Nat.lt_of_le_of_lt (List.length_filter_le _ _) hshort
          exact ih _ hshorter ((hnodup.erase node).filter _) htail hm hne hmrest rfl
      · cases after with
        | nil =>
          rw [List.append_nil] at hfirst
          rw [← hfirst]
          exact hhere (List.cons.inj hlater).1
        | cons first after =>
          obtain ⟨rfl, -⟩ := List.cons.inj hlater
          have hnbelow : n ∈ below := by
            rw [hfirst]
            simp
          exact ih _ hshort (hnodup.erase node) hfirst hm hne
            ((List.mem_erase_of_ne (ne_of_below hrank hnbelow hm hne)).mpr hunvisited) rfl

end Walk

/-! ## Declarations -/

/-- The declarations that a declaration refers to are placed before it, if references lead down from
results of higher rank to results of lower rank. -/
theorem mem_before_of_placed {table : OpTable} {declarations : List Instruction} {used : List Word}
    (hdistinct : (declarations.filterMap (Instruction.resultId? table)).Nodup) {rank : Word → Nat}
    (hrank : ∀ d ∈ declarations, ∃ v, d.resultId? table = some v ∧ ∀ w ∈ d.ids, w = v ∨ rank w < rank v)
    {l l' : List Instruction} {d : Instruction} (hplaced : placed table declarations used = l ++ d :: l')
    {w : Word} (hw : w ∈ d.ids) (hne : d.resultId? table ≠ some w)
    (hdeclared : w ∈ declarations.filterMap (Instruction.resultId? table)) :
    w ∈ l.filterMap (Instruction.resultId? table) := by
  set index := declarationIndex table declarations with hindex
  -- Nodes are positions here: a position has the rank of what is declared at it.
  set rankAt : Nat → Nat := fun n =>
    ((declarations[n]?.bind (Instruction.resultId? table)).map rank).getD 0 with hrankAt
  have hdown : ∀ n, ∀ m ∈ references index declarations n, m = n ∨ rankAt m < rankAt n := by
    intro n m hm
    rw [references] at hm
    split at hm
    · next d hd =>
      obtain ⟨v, hv, hids⟩ := hrank d (List.mem_of_getElem? hd)
      obtain ⟨w, hw, hlookup⟩ := List.mem_filterMap.mp hm
      obtain ⟨d', hd', hw'⟩ := (lookup_declarationIndex hdistinct).mp hlookup
      rcases hids w hw with rfl | hlt
      · rw [(lookup_declarationIndex hdistinct).mpr ⟨d, hd, hv⟩] at hlookup
        exact .inl (Option.some.inj hlookup).symm
      · refine .inr ?_
        simpa [hrankAt, hd, hd', hv, hw'] using hlt
    · cases hm
  obtain ⟨first, last, hsplit, hfirst, hlast⟩ := List.filterMap_eq_append_iff.mp hplaced
  obtain ⟨skipped, n, last', hlast', hskipped, hn, -⟩ := List.filterMap_eq_cons_iff.mp hlast
  -- Positions without a declaration are skipped, so the walk has the declaration at some `n`.
  have hwalk : placement table declarations used = (first ++ skipped) ++ n :: last' := by
    rw [hsplit, hlast', List.append_assoc]
  obtain ⟨d', hd', hw'⟩ := List.mem_filterMap.mp hdeclared
  obtain ⟨m, hm⟩ := List.mem_iff_getElem?.mp hd'
  have hlookup : index.lookup w = some m := (lookup_declarationIndex hdistinct).mpr ⟨d', hm, hw'⟩
  -- A declaration with both results would be one, and this one does not have `w`.
  have hmn : m ≠ n := by
    rintro rfl
    obtain rfl := Option.some.inj (hn.symm.trans hm)
    exact hne hw'
  have hbefore : m ∈ first ++ skipped := by
    unfold placement at hwalk
    exact mem_before_of_next hdown List.nodup_range hwalk (mem_references hn hw hlookup) hmn
      (List.mem_range.mpr (List.getElem?_eq_some_iff.mp hm).1)
  refine List.mem_filterMap.mpr ⟨d', ?_, hw'⟩
  rw [← hfirst]
  refine List.mem_filterMap.mpr ⟨m, ?_, hm⟩
  rcases List.mem_append.mp hbefore with hmem | hmem
  · exact hmem
  · rw [hskipped m hmem] at hm
    cases hm

end ShaderLowering.Layout
