import Mathlib.Data.Finset.Card
import Mathlib.Logic.Relation
import ShaderLowering.Proofs.Layout.CanonicalForm
import ShaderLowering.Proofs.Layout.Topological

/-!
# Placement is the postorder of what references unfold to

`Postorder next met roots order` is the walk as one would define it: a node that has been met is passed
over; another is met, what comes next to it is walked, the node is written down, and only then the rest is
walked.  A derivation is a walk that has ended, and the placement of any declarations has one
(`postorder_placement`), whether references dangle, run in circles or name one result twice.  An id stands for
the last declaration that has it for a result (`declared?`).

The walk marks nodes before it descends, so on a circle what it writes down is a matter of where it began.
Without circles it is not.  References then unfold to a finite tree at each declaration (`Unfolds`), and
the placement is these trees in postorder, one after another, with everything but the first appearances
left out (`Postorder.eq_firstAppearances`).
-/

namespace ShaderLowering.Layout

open Spirv
open Relation (TransGen)

/-! ## The walk -/

/-- Depth-first postorder of what roots lead to, without what has been met before. -/
inductive Postorder (next : Nat → List Nat) : List Nat → List Nat → List Nat → Prop
  | nil (met : List Nat) : Postorder next met [] []
  | skip {met : List Nat} {root : Nat} {rest order : List Nat} (hmet : root ∈ met)
      (hrest : Postorder next met rest order) : Postorder next met (root :: rest) order
  | visit {met : List Nat} {root : Nat} {rest below after : List Nat} (hnew : root ∉ met)
      (hbelow : Postorder next (root :: met) (next root) below)
      (hrest : Postorder next (below ++ root :: met) rest after) :
      Postorder next met (root :: rest) (below ++ root :: after)

variable {next : Nat → List Nat} {met roots order unvisited : List Nat} {k m n : Nat}

/-- There is one postorder. -/
theorem Postorder.unique {order' : List Nat} (h : Postorder next met roots order)
    (h' : Postorder next met roots order') : order = order' := by
  induction h generalizing order' with
  | nil =>
    cases h'
    rfl
  | skip hmet _ ih =>
    cases h' with
    | skip _ hrest => exact ih hrest
    | visit hnew _ _ => exact absurd hmet hnew
  | visit hnew _ _ ihbelow ihrest =>
    cases h' with
    | skip hmet _ => exact absurd hmet hnew
    | visit _ hbelow hrest =>
      obtain rfl := ihbelow hbelow
      obtain rfl := ihrest hrest
      rfl

/-- The walk over a stack of visits is the postorder, if the nodes that are not unvisited are those that have
been met. -/
theorem postorder_walk (bound : Nat) (hclosed : ∀ n < bound, ∀ m ∈ next n, m < bound)
    (hnodup : unvisited.Nodup) (hmet : ∀ n < bound, n ∈ unvisited ↔ n ∉ met)
    (hroots : ∀ n ∈ roots, n < bound) :
    Postorder next met roots (postorder next unvisited (roots.map .enter)) := by
  induction hsize : unvisited.length using Nat.strong_induction_on
    generalizing unvisited met roots with
  -- A visit removes a node, so what is unvisited gets shorter both below it and after it.
  | _ size ih =>
    subst hsize
    induction roots with
    | nil =>
      rw [List.map_nil, postorder]
      exact .nil met
    | cons root rest ihrest =>
      have hroot : root < bound := hroots root List.mem_cons_self
      have hrest : ∀ n ∈ rest, n < bound := fun n hn => hroots n (List.mem_cons_of_mem root hn)
      rw [List.map_cons]
      by_cases hmem : root ∈ unvisited
      case neg =>
        rw [postorder, if_neg hmem]
        exact .skip (not_not.mp (mt (hmet root hroot).mpr hmem)) (ihrest hrest)
      rw [postorder_enter hnodup hmem]
      have hshort : (unvisited.erase root).length < unvisited.length := by
        rw [List.length_erase_of_mem hmem]
        exact Nat.sub_lt (List.length_pos_of_mem hmem) Nat.one_pos
      have hbelow : ∀ n < bound, n ∈ unvisited.erase root ↔ n ∉ root :: met := by
        intro n hn
        rw [hnodup.mem_erase_iff, hmet n hn, List.mem_cons, not_or]
      -- Below the root less is unvisited; after it, what was written down below is met.
      refine .visit ((hmet root hroot).mp hmem) ?_ ?_
      · exact ih _ hshort (hnodup.erase root) hbelow (hclosed root hroot) rfl
      · refine ih _ (Nat.lt_of_le_of_lt (List.length_filter_le _ _) hshort)
          ((hnodup.erase root).filter _) (fun n hn => ?_) hrest rfl
        rw [List.mem_filter, hbelow n hn, List.mem_append, not_or, and_comm, decide_eq_true_iff]

/-! ## Trees -/

/-- References unfolded: what a node refers to is unfolded before the node is written down.  A reference of a
node to itself is none. -/
def Unfolds (next : Nat → List Nat) (unfold : Nat → List Nat) : Prop :=
  ∀ n, unfold n = ((next n).filter (· ≠ n)).flatMap unfold ++ [n]

section Trees

variable {unfold : Nat → List Nat} (h : Unfolds next unfold)

include h

theorem Unfolds.mem_iff : k ∈ unfold n ↔ k = n ∨ ∃ m ∈ next n, m ≠ n ∧ k ∈ unfold m := by
  rw [h n]
  simp only [List.mem_append, List.mem_flatMap, List.mem_filter, decide_eq_true_iff, List.mem_singleton,
    and_assoc]
  exact or_comm

theorem Unfolds.self_mem (n : Nat) : n ∈ unfold n :=
  h.mem_iff.mpr (.inl rfl)

variable {rank : Nat → Nat} (hrank : ∀ n, ∀ m ∈ next n, m = n ∨ rank m < rank n)

include hrank

/-- What is in a tree is at the root or of lower rank. -/
theorem Unfolds.rank_of_mem (hk : k ∈ unfold n) : k = n ∨ rank k < rank n := by
  induction hsize : rank n using Nat.strong_induction_on generalizing n with
  | _ size ih =>
    subst hsize
    rcases h.mem_iff.mp hk with hroot | ⟨m, hm, hne, hbelow⟩
    · exact .inl hroot
    · have hlt := (hrank n m hm).resolve_left hne
      rcases ih _ hlt hbelow rfl with rfl | hdown
      · exact .inr hlt
      · exact .inr (hdown.trans hlt)

/-- A node is not below what it refers to. -/
theorem Unfolds.ne_of_mem (hm : m ∈ next n) (hne : m ≠ n) (hk : k ∈ unfold m) : k ≠ n := by
  rintro rfl
  have hlt := (hrank k m hm).resolve_left hne
  rcases h.rank_of_mem hrank hk with heq | hdown
  · exact hne heq.symm
  · exact Nat.lt_asymm hlt hdown

/-- The tree at a node of a tree is a part of it. -/
theorem Unfolds.trans (hm : m ∈ unfold n) (hk : k ∈ unfold m) : k ∈ unfold n := by
  induction hsize : rank n using Nat.strong_induction_on generalizing n with
  | _ size ih =>
    subst hsize
    rcases h.mem_iff.mp hm with rfl | ⟨j, hj, hne, hbelow⟩
    · exact hk
    · exact h.mem_iff.mpr (.inr ⟨j, hj, hne, ih _ ((hrank n j hj).resolve_left hne) hbelow rfl⟩)

/-- What is in a tree is at the root or another node refers to it. -/
theorem Unfolds.exists_of_mem (hk : k ∈ unfold n) : k = n ∨ ∃ m, m ≠ k ∧ k ∈ next m := by
  induction hsize : rank n using Nat.strong_induction_on generalizing n with
  | _ size ih =>
    subst hsize
    rcases h.mem_iff.mp hk with hroot | ⟨m, hm, hne, hbelow⟩
    · exact .inl hroot
    · rcases ih _ ((hrank n m hm).resolve_left hne) hbelow rfl with rfl | hother
      · exact .inr ⟨n, hne.symm, hm⟩
      · exact .inr hother

end Trees

/-- References unfolded to a depth. -/
def unfoldWithin (next : Nat → List Nat) : Nat → Nat → List Nat
  | 0, _ => []
  | depth + 1, n => ((next n).filter (· ≠ n)).flatMap (unfoldWithin next depth) ++ [n]

section Unfolding

variable {rank : Nat → Nat} (hrank : ∀ n, ∀ m ∈ next n, m = n ∨ rank m < rank n)

include hrank

/-- No tree is deeper than the rank of its root. -/
theorem unfoldWithin_eq {depth depth' : Nat} (hdepth : rank n < depth) (hdepth' : rank n < depth') :
    unfoldWithin next depth n = unfoldWithin next depth' n := by
  induction depth generalizing depth' n with
  | zero => exact absurd hdepth (Nat.not_lt_zero _)
  | succ depth ih =>
    cases depth' with
    | zero => exact absurd hdepth' (Nat.not_lt_zero _)
    | succ depth' =>
      rw [unfoldWithin, unfoldWithin]
      congr 1
      refine List.flatMap_congr fun m hm => ?_
      obtain ⟨hm, hne⟩ := List.mem_filter.mp hm
      have hlt := (hrank n m hm).resolve_left (of_decide_eq_true hne)
      exact ih (hlt.trans_le (Nat.le_of_lt_succ hdepth)) (hlt.trans_le (Nat.le_of_lt_succ hdepth'))

/-- References that lead down unfold. -/
theorem exists_unfolds : ∃ unfold, Unfolds next unfold := by
  refine ⟨fun n => unfoldWithin next (rank n + 1) n, fun n => ?_⟩
  dsimp only
  rw [unfoldWithin]
  congr 1
  refine List.flatMap_congr fun m hm => ?_
  obtain ⟨hm, hne⟩ := List.mem_filter.mp hm
  have hlt := (hrank n m hm).resolve_left (of_decide_eq_true hne)
  exact unfoldWithin_eq hrank hlt (Nat.lt_succ_self _)

/-- What a node writes down when it is met: its tree, without what has been met before. -/
theorem firstAppearances_unfold {unfold : Nat → List Nat} (hunfold : Unfolds next unfold) (hnew : n ∉ met) :
    (firstAppearances (unfold n)).filter (· ∉ met) =
      (firstAppearances (((next n).filter (· ≠ n)).flatMap unfold)).filter (· ∉ n :: met) ++ [n] := by
  have hroot : ∀ k ∈ ((next n).filter (· ≠ n)).flatMap unfold, k ≠ n := by
    intro k hk
    obtain ⟨m, hm, hk⟩ := List.mem_flatMap.mp hk
    obtain ⟨hm, hne⟩ := List.mem_filter.mp hm
    exact hunfold.ne_of_mem hrank hm (of_decide_eq_true hne) hk
  rw [hunfold n]
  generalize ((next n).filter (· ≠ n)).flatMap unfold = below at hroot
  have hlast : n ∉ below := fun hmem => hroot n hmem rfl
  rw [firstAppearances_append, List.filter_append]
  congr 1
  · refine List.filter_congr fun k hk => ?_
    simp [hroot k (mem_firstAppearances.mp hk)]
  · simp [firstAppearances, hlast, hnew]

/-- The walk writes down the trees of its roots, without what has been met before and what it has written
down before.  It may pass over roots that have been met (`keep`), and what has been met in the trees of the
others has been met with all that is below it. -/
theorem Postorder.eq_firstAppearances {unfold : Nat → List Nat} (hunfold : Unfolds next unfold)
    (h : Postorder next met roots order) (keep : Nat → Bool)
    (hkeep : ∀ n ∈ roots, keep n = false → n ∈ met)
    (hclosed : ∀ n ∈ roots, keep n = true → ∀ k ∈ unfold n, k ∈ met → ∀ j ∈ unfold k, j ∈ met) :
    order = (firstAppearances ((roots.filter keep).flatMap unfold)).filter (· ∉ met) := by
  induction h generalizing keep with
  | nil => rfl
  | @skip met root rest order hmet _ ih =>
    have hrest := ih keep (fun n hn => hkeep n (List.mem_cons_of_mem root hn))
      fun n hn => hclosed n (List.mem_cons_of_mem root hn)
    -- A root that has been met adds nothing: if it counts, its whole tree has been met.
    cases hroot : keep root with
    | false => rw [hrest, List.filter_cons_of_neg (by simp [hroot])]
    | true =>
      have hall : ∀ k ∈ unfold root, k ∈ met :=
        hclosed root List.mem_cons_self hroot root (hunfold.self_mem root) hmet
      have hnone : (firstAppearances (unfold root)).filter (· ∉ met) = [] := by
        refine List.filter_eq_nil_iff.mpr fun k hk => ?_
        simpa using hall k (mem_firstAppearances.mp hk)
      rw [hrest, List.filter_cons_of_pos hroot, List.flatMap_cons, firstAppearances_append,
        List.filter_append, hnone, List.nil_append, List.filter_filter]
      refine List.filter_congr fun k _ => ?_
      by_cases hk : k ∈ met
      · simp [hk]
      · simp [hk, mt (hall k) hk]
  | @visit met root rest below after hnew _ _ ihbelow ihrest =>
    have hroot : keep root = true := by
      by_contra hskipped
      exact hnew (hkeep root List.mem_cons_self (Bool.not_eq_true _ ▸ hskipped))
    -- Below the root, its reference to itself is passed over.
    have hbelow := ihbelow (· ≠ root) (fun n _ hn => by simp_all) fun n hn hne k hk hmet j hj => by
      have hbranch : k ∈ unfold root := hunfold.mem_iff.mpr (.inr ⟨n, hn, of_decide_eq_true hne, hk⟩)
      rcases List.mem_cons.mp hmet with rfl | hmet
      · exact absurd rfl (hunfold.ne_of_mem hrank hn (of_decide_eq_true hne) hk)
      · exact List.mem_cons_of_mem _ (hclosed root List.mem_cons_self hroot k hbranch hmet j hj)
    have htree : (firstAppearances (unfold root)).filter (· ∉ met) = below ++ [root] := by
      rw [firstAppearances_unfold hrank hunfold hnew, ← hbelow]
    have hmem : ∀ k, k ∈ below ++ root :: met ↔ k ∈ unfold root ∨ k ∈ met := by
      intro k
      have hk : k ∈ below ++ [root] ↔ k ∈ unfold root ∧ k ∉ met := by
        rw [← htree, List.mem_filter, mem_firstAppearances, decide_eq_true_iff]
      rw [List.append_cons, List.mem_append, hk]
      tauto
    -- The tree that was just written down has been met with all that is below each of its nodes.
    have hafter := ihrest keep (fun n hn hskip => (hmem n).mpr
      (.inr (hkeep n (List.mem_cons_of_mem root hn) hskip))) fun n hn hkept k hk hmet j hj => by
        rw [hmem] at hmet ⊢
        rcases hmet with hmet | hmet
        · exact .inl (hunfold.trans hrank hmet hj)
        · exact .inr (hclosed n (List.mem_cons_of_mem root hn) hkept k hk hmet j hj)
    rw [List.filter_cons_of_pos hroot, List.flatMap_cons, firstAppearances_append, List.filter_append,
      htree, List.append_cons, hafter, List.filter_filter]
    congr 1
    refine List.filter_congr fun k _ => ?_
    rw [← Bool.decide_and, decide_eq_decide, hmem, not_or, and_comm]

end Unfolding

theorem before_firstAppearances {xs ys : List Nat} (hn : n ∈ xs) (hm : m ∉ xs) (hlater : m ∈ ys) :
    [n, m].Sublist (firstAppearances (xs ++ ys)) := by
  have hnew : m ∈ (firstAppearances ys).filter (· ∉ xs) :=
    List.mem_filter.mpr ⟨mem_firstAppearances.mpr hlater, decide_eq_true hm⟩
  rw [firstAppearances_append]
  exact (List.singleton_sublist.mpr (mem_firstAppearances.mpr hn)).append (List.singleton_sublist.mpr hnew)

/-! ## Ids among operands -/

/-- Members at ascending places are a part of a list in its order. -/
theorem filterMap_getElem?_sublist {α : Type} (xs : List α) {ps : List Nat}
    (h : ps.Pairwise (· < ·)) {k : Nat} (hk : ∀ p ∈ ps, k ≤ p) :
    (ps.filterMap (xs[·]?)).Sublist (xs.drop k) := by
  induction ps generalizing k with
  | nil => exact List.nil_sublist _
  | cons p ps ih =>
    obtain ⟨hfirst, hrest⟩ := List.pairwise_cons.mp h
    cases hx : xs[p]? with
    | none =>
      rw [List.filterMap_cons_none hx]
      exact ih hrest fun q hq => hk q (List.mem_cons_of_mem p hq)
    | some x =>
      obtain ⟨hp, rfl⟩ := List.getElem?_eq_some_iff.mp hx
      have hlater := (ih hrest hfirst).cons_cons xs[p]
      rw [List.filterMap_cons_some hx]
      rw [← List.drop_eq_getElem_cons hp] at hlater
      exact hlater.trans (List.drop_sublist_drop_left xs (hk p List.mem_cons_self))

/-- The interface of an entry point begins after its function. -/
theorem one_lt_of_interfaceStart_le {operands : List Word} {p : Nat}
    (hle : Instruction.interfaceStart operands ≤ p) (hp : p < operands.length) : 1 < p := by
  rw [Instruction.interfaceStart] at hle
  split at hle <;> omega

theorem pairwise_nominalIdPositions (i : Instruction) : i.nominalIdPositions.Pairwise (· < ·) := by
  cases hop : i.op? with
  | none => simp [Instruction.nominalIdPositions, hop]
  | some op =>
    cases op with
    | entryPoint =>
      simp only [Instruction.nominalIdPositions, hop]
      refine List.pairwise_cons.mpr ⟨fun p hp => ?_, List.pairwise_lt_range'⟩
      obtain ⟨hle, hlt⟩ := List.mem_range'_1.mp hp
      exact one_lt_of_interfaceStart_le hle (by omega)
    | _ => simp [Instruction.nominalIdPositions, hop, List.pairwise_lt_range]

/-- The ids of an instruction are among its operands, from left to right. -/
theorem ids_sublist (i : Instruction) : i.ids.Sublist i.operands :=
  filterMap_getElem?_sublist i.operands ((pairwise_nominalIdPositions i).filter _) fun _ _ => Nat.zero_le _

/-! ## Declarations -/

section Declarations

variable {table : OpTable} {declarations : List Instruction} {used : List Word} {w : Word}

/-- The position of the declaration that an id stands for: the last one that has it for its result. -/
def declared? (table : OpTable) (declarations : List Instruction) (w : Word) : Option Nat :=
  (List.range declarations.length).reverse.find? fun n =>
    declarations[n]?.bind (Instruction.resultId? table) = some w

/-- The positions that a declaration refers to, its ids from left to right. -/
def referred (table : OpTable) (declarations : List Instruction) (n : Nat) : List Nat :=
  (declarations[n]?.elim [] Instruction.ids).filterMap (declared? table declarations)

/-- What is placed, in sequence: what the used ids stand for, then everything. -/
def asked (table : OpTable) (declarations : List Instruction) (used : List Word) : List Nat :=
  used.filterMap (declared? table declarations) ++ List.range declarations.length

/-- One declaration refers to another if the result of that one is among its ids. -/
def Refers (table : OpTable) (declarations : List Instruction) (n m : Nat) : Prop :=
  ∃ d e w, declarations[n]? = some d ∧ w ∈ d.ids ∧ declarations[m]? = some e ∧ e.resultId? table = some w

/-- References between different declarations do not run in circles. -/
def Acyclic (table : OpTable) (declarations : List Instruction) : Prop :=
  ∀ n, ¬ TransGen (fun n m => Refers table declarations n m ∧ m ≠ n) n n

/-- Used ids lead to the declaration at a position. -/
def LedTo (table : OpTable) (declarations : List Instruction) (used : List Word) (n : Nat) : Prop :=
  ∃ d w, declarations[n]? = some d ∧ d.resultId? table = some w ∧ Reached table declarations used w

/-- No used id and no other declaration refers to the declaration at a position. -/
structure Unreferenced (table : OpTable) (declarations : List Instruction) (used : List Word) (n : Nat) :
    Prop where
  declared : n < declarations.length
  notUsed : ∀ d w, declarations[n]? = some d → d.resultId? table = some w → w ∉ used
  notReferred : ∀ m, Refers table declarations m n → m = n

/-! ### Placement in these terms -/

/-- To look up a key among members with their keys is to find a member with the key. -/
theorem lookup_filterMap {α κ : Type} [DecidableEq κ] (key : α → Option κ) (xs : List α) (k : κ) :
    (xs.filterMap fun x => (key x).map (·, x)).lookup k = xs.find? fun x => key x = some k := by
  induction xs with
  | nil => rfl
  | cons x xs ih =>
    cases hkey : key x with
    | none => simp [hkey, ih]
    | some k' =>
      by_cases heq : k = k'
      · simp [hkey, heq]
      · have hother : (k == k') = false := beq_eq_false_iff_ne.mpr heq
        simpa [hkey, Ne.symm heq, List.lookup_cons, hother] using ih

/-- The index of declarations leads to what ids stand for. -/
theorem lookup_declarationIndex_eq (table : OpTable) (declarations : List Instruction) (w : Word) :
    (declarationIndex table declarations).lookup w = declared? table declarations w := by
  have hindex : declarationIndex table declarations =
      (List.range declarations.length).reverse.filterMap fun n =>
        (declarations[n]?.bind (Instruction.resultId? table)).map (·, n) := by
    rw [declarationIndex, List.filterMap_reverse, ← filterMap_getElem?_range declarations.zipIdx,
      List.filterMap_filterMap, List.length_zipIdx]
    congr 1
    refine List.filterMap_congr fun n _ => ?_
    rw [List.getElem?_zipIdx]
    cases declarations[n]? with
    | none => rfl
    | some d => simp
  rw [hindex, lookup_filterMap, declared?]

theorem declarationsOf_eq (table : OpTable) (declarations : List Instruction) (ids : List Word) :
    declarationsOf (declarationIndex table declarations) ids =
      ids.filterMap (declared? table declarations) :=
  List.filterMap_congr fun w _ => lookup_declarationIndex_eq table declarations w

theorem references_eq (table : OpTable) (declarations : List Instruction) :
    references (declarationIndex table declarations) declarations = referred table declarations := by
  funext n
  rw [references, referred]
  cases declarations[n]? with
  | none => rfl
  | some d => exact declarationsOf_eq table declarations d.ids

theorem placement_eq (table : OpTable) (declarations : List Instruction) (used : List Word) :
    placement table declarations used =
      postorder (referred table declarations) (List.range declarations.length)
        ((asked table declarations used).map .enter) := by
  rw [placement, references_eq, declarationsOf_eq, asked]

theorem lt_of_declared? (h : declared? table declarations w = some n) : n < declarations.length :=
  List.mem_range.mp (List.mem_reverse.mp (List.mem_of_find?_eq_some h))

theorem lt_of_mem_filterMap {ids : List Word} (h : n ∈ ids.filterMap (declared? table declarations)) :
    n < declarations.length := by
  obtain ⟨w, -, hw⟩ := List.mem_filterMap.mp h
  exact lt_of_declared? hw

/-- To place any declarations is a walk that ends. -/
theorem postorder_placement (table : OpTable) (declarations : List Instruction) (used : List Word) :
    Postorder (referred table declarations) [] (asked table declarations used)
      (placement table declarations used) := by
  rw [placement_eq]
  refine postorder_walk declarations.length (fun n _ m hm => lt_of_mem_filterMap hm) List.nodup_range
    (fun n hn => ?_) fun n hn => ?_
  · simpa using hn
  · rcases List.mem_append.mp hn with hn | hn
    · exact lt_of_mem_filterMap hn
    · exact List.mem_range.mp hn

/-! ### Circles -/

/-- References that lead down do not run in circles. -/
theorem acyclic_of_rank (rank : Nat → Nat)
    (hrank : ∀ n m, Refers table declarations n m → m = n ∨ rank m < rank n) :
    Acyclic table declarations := by
  have hdown : ∀ {n m}, TransGen (fun n m => Refers table declarations n m ∧ m ≠ n) n m →
      rank m < rank n := by
    intro n m h
    induction h with
    | single h => exact (hrank _ _ h.1).resolve_left h.2
    | tail _ h ih => exact ((hrank _ _ h.1).resolve_left h.2).trans ih
  exact fun n h => Nat.lt_irrefl _ (hdown h)

/-- References that do not run in circles lead down: the rank of a declaration is how many others it leads
to. -/
theorem Acyclic.exists_rank (h : Acyclic table declarations) :
    ∃ rank : Nat → Nat, ∀ n m, Refers table declarations n m → m = n ∨ rank m < rank n := by
  classical
  let leads := TransGen fun n m => Refers table declarations n m ∧ m ≠ n
  refine ⟨fun n => ((Finset.range declarations.length).filter (leads n)).card, fun n m hrefers => ?_⟩
  by_cases hne : m = n
  · exact .inl hne
  have hleads : leads n m := .single ⟨hrefers, hne⟩
  have hsubset : (Finset.range declarations.length).filter (leads m) ⊆
      (Finset.range declarations.length).filter (leads n) :=
    Finset.monotone_filter_right _ fun k _ hk => hleads.trans hk
  have hdeclared : m < declarations.length := by
    obtain ⟨_, e, _, _, _, he, _⟩ := hrefers
    exact (List.getElem?_eq_some_iff.mp he).1
  refine .inr (Finset.card_lt_card ((Finset.ssubset_iff_of_subset hsubset).mpr ⟨m, ?_, fun hm => ?_⟩))
  · exact Finset.mem_filter.mpr ⟨Finset.mem_range.mpr hdeclared, hleads⟩
  · exact h m (Finset.mem_filter.mp hm).2

/-! ### Distinct results -/

section Distinct

variable (hdistinct : (declarations.filterMap (Instruction.resultId? table)).Nodup)

include hdistinct

theorem declared?_eq_some_iff : declared? table declarations w = some n ↔
    ∃ d, declarations[n]? = some d ∧ d.resultId? table = some w := by
  rw [← lookup_declarationIndex_eq, lookup_declarationIndex hdistinct]

theorem mem_referred_iff : m ∈ referred table declarations n ↔ Refers table declarations n m := by
  rw [referred, List.mem_filterMap]
  constructor
  · rintro ⟨w, hw, hm⟩
    obtain ⟨e, he, hresult⟩ := (declared?_eq_some_iff hdistinct).mp hm
    cases hd : declarations[n]? with
    | none =>
      rw [hd] at hw
      cases hw
    | some d =>
      rw [hd] at hw
      exact ⟨d, e, w, hd, hw, he, hresult⟩
  · rintro ⟨d, e, w, hd, hw, he, hresult⟩
    rw [hd]
    exact ⟨w, hw, (declared?_eq_some_iff hdistinct).mpr ⟨e, he, hresult⟩⟩

variable {rank : Nat → Nat} (hrank : ∀ n, ∀ m ∈ referred table declarations n, m = n ∨ rank m < rank n)

include hrank

/-- A declaration is placed after all others that it refers to. -/
theorem before_of_refers (hrefers : Refers table declarations n m) (hne : m ≠ n) :
    [m, n].Sublist (placement table declarations used) := by
  have hdeclared : ∀ k d, declarations[k]? = some d → k ∈ List.range declarations.length := fun k d hd =>
    List.mem_range.mpr (List.getElem?_eq_some_iff.mp hd).1
  obtain ⟨d, e, w, hd, hw, he, hresult⟩ := id hrefers
  have hn : n ∈ placement table declarations used :=
    (placement_perm table declarations used).mem_iff.mpr (hdeclared n d hd)
  obtain ⟨l, l', hsplit⟩ := List.append_of_mem hn
  have hm : m ∈ l := mem_before_of_next hrank List.nodup_range
    ((placement_eq table declarations used).symm.trans hsplit) ((mem_referred_iff hdistinct).mpr hrefers) hne
    (hdeclared m e he)
  rw [hsplit]
  exact (List.singleton_sublist.mpr hm).append (List.singleton_sublist.mpr List.mem_cons_self)

variable {unfold : Nat → List Nat} (hunfold : Unfolds (referred table declarations) unfold)

include hunfold

/-- What used ids lead to is in the tree of one of them. -/
theorem mem_trees_of_reached (h : Reached table declarations used w)
    (hn : declared? table declarations w = some n) :
    n ∈ (used.filterMap (declared? table declarations)).flatMap unfold := by
  induction h generalizing n with
  | used hw =>
    exact List.mem_flatMap.mpr ⟨n, List.mem_filterMap.mpr ⟨_, hw, hn⟩, hunfold.self_mem n⟩
  | @refers d v w hd hresult _ hw ih =>
    obtain ⟨k, hk⟩ := List.mem_iff_getElem?.mp hd
    have hdeclared := (declared?_eq_some_iff hdistinct).mpr ⟨d, hk, hresult⟩
    obtain ⟨e, he, hresult'⟩ := (declared?_eq_some_iff hdistinct).mp hn
    have hnext : n ∈ referred table declarations k :=
      (mem_referred_iff hdistinct).mpr ⟨d, e, w, hk, hw, he, hresult'⟩
    obtain ⟨root, hroot, hmem⟩ := List.mem_flatMap.mp (ih hdeclared)
    refine List.mem_flatMap.mpr ⟨root, hroot, hunfold.trans hrank hmem ?_⟩
    by_cases hne : n = k
    · exact hne ▸ hunfold.self_mem n
    · exact hunfold.mem_iff.mpr (.inr ⟨n, hnext, hne, hunfold.self_mem n⟩)

namespace Unreferenced

variable (h : Unreferenced table declarations used m)

include h

/-- What nothing refers to is in no tree but its own. -/
theorem eq_of_mem (hm : m ∈ unfold n) : m = n := by
  rcases hunfold.exists_of_mem hrank hm with heq | ⟨k, hne, hk⟩
  · exact heq
  · exact absurd (h.notReferred k ((mem_referred_iff hdistinct).mp hk)) hne

theorem not_mem_trees : m ∉ (used.filterMap (declared? table declarations)).flatMap unfold := by
  intro hm
  obtain ⟨n, hn, hmem⟩ := List.mem_flatMap.mp hm
  obtain rfl := h.eq_of_mem hdistinct hrank hunfold hmem
  obtain ⟨w, hw, hdeclared⟩ := List.mem_filterMap.mp hn
  obtain ⟨d, hd, hresult⟩ := (declared?_eq_some_iff hdistinct).mp hdeclared
  exact h.notUsed d w hd hresult hw

/-- What nothing refers to comes after what used ids lead to. -/
theorem before_of_ledTo (hn : LedTo table declarations used n) :
    [n, m].Sublist (firstAppearances ((asked table declarations used).flatMap unfold)) := by
  obtain ⟨d, w, hd, hresult, hreached⟩ := hn
  have hdeclared := (declared?_eq_some_iff hdistinct).mpr ⟨d, hd, hresult⟩
  rw [asked, List.flatMap_append]
  refine before_firstAppearances (mem_trees_of_reached hdistinct hrank hunfold hreached hdeclared)
    (h.not_mem_trees hdistinct hrank hunfold) ?_
  exact List.mem_flatMap.mpr ⟨m, List.mem_range.mpr h.declared, hunfold.self_mem m⟩

/-- What nothing refers to comes after what was declared before it. -/
theorem before_of_lt (hlt : n < m) :
    [n, m].Sublist (firstAppearances ((asked table declarations used).flatMap unfold)) := by
  obtain ⟨more, hmore⟩ := Nat.exists_eq_add_of_lt h.declared
  rw [asked, hmore, Nat.add_assoc, List.range_add, ← List.append_assoc, List.flatMap_append]
  refine before_firstAppearances (List.mem_flatMap.mpr ⟨n, ?_, hunfold.self_mem n⟩) (fun hm => ?_)
    (List.mem_flatMap.mpr ⟨m, List.mem_map.mpr ⟨0, by simp⟩, hunfold.self_mem m⟩)
  · exact List.mem_append_right _ (List.mem_range.mpr hlt)
  · rw [List.flatMap_append] at hm
    rcases List.mem_append.mp hm with hm | hm
    · exact h.not_mem_trees hdistinct hrank hunfold hm
    · obtain ⟨k, hk, hmem⟩ := List.mem_flatMap.mp hm
      obtain rfl := h.eq_of_mem hdistinct hrank hunfold hmem
      exact Nat.lt_irrefl _ (List.mem_range.mp hk)

end Unreferenced

end Distinct

/-- To place declarations is a walk from what the used ids stand for and then from all positions, which takes
the ids among the operands of a declaration from left to right.  It ends, whatever the declarations are and
whichever opcodes are known, and every position is placed once.

If results are distinct and references between different declarations do not run in circles, a declaration is
placed after all that it refers to.  The order is that of the trees that references unfold to, in postorder,
from the used ids one after another; what nothing refers to comes after what they lead to and after what was
declared before it. -/
theorem placement_unfolds (table : OpTable) (declarations : List Instruction) (used : List Word) :
    (∀ order, Postorder (referred table declarations) [] (asked table declarations used) order ↔
      order = placement table declarations used) ∧
    (placement table declarations used).Perm (List.range declarations.length) ∧
    (∀ d ∈ declarations, d.ids.Sublist d.operands) ∧
    ((declarations.filterMap (Instruction.resultId? table)).Nodup → Acyclic table declarations →
      (∀ n m, Refers table declarations n m → m ≠ n →
        [m, n].Sublist (placement table declarations used)) ∧
      (∃ unfold, Unfolds (referred table declarations) unfold) ∧
      (∀ unfold, Unfolds (referred table declarations) unfold →
        placement table declarations used =
          firstAppearances ((asked table declarations used).flatMap unfold)) ∧
      ∀ m, Unreferenced table declarations used m →
        (∀ n, LedTo table declarations used n → [n, m].Sublist (placement table declarations used)) ∧
        ∀ n < m, [n, m].Sublist (placement table declarations used)) := by
  have hwalk := postorder_placement table declarations used
  refine ⟨fun order => ⟨fun h => h.unique hwalk, fun h => h ▸ hwalk⟩, placement_perm table declarations used,
    fun d _ => ids_sublist d, ?_⟩
  intro hdistinct hacyclic
  -- A rank that falls along references makes the unfolding end.
  obtain ⟨rank, hdown⟩ := hacyclic.exists_rank
  have hrank : ∀ n, ∀ m ∈ referred table declarations n, m = n ∨ rank m < rank n := fun n m hm =>
    hdown n m ((mem_referred_iff hdistinct).mp hm)
  have htrees : ∀ unfold, Unfolds (referred table declarations) unfold →
      placement table declarations used =
        firstAppearances ((asked table declarations used).flatMap unfold) := by
    intro unfold hunfold
    have h := hwalk.eq_firstAppearances hrank hunfold (fun _ => true) (by simp) (by simp)
    simpa using h
  obtain ⟨unfold, hunfold⟩ := exists_unfolds hrank
  refine ⟨fun n m => before_of_refers hdistinct hrank, ⟨unfold, hunfold⟩, htrees, fun m hm => ⟨?_, ?_⟩⟩
  · intro n hn
    rw [htrees unfold hunfold]
    exact hm.before_of_ledTo hdistinct hrank hunfold hn
  · intro n hlt
    rw [htrees unfold hunfold]
    exact hm.before_of_lt hdistinct hrank hunfold hlt

end Declarations

section Globals

/-- A number type and a type of nothing, a pointer to the number type and a variable of the pointer type, and
a function type that returns nothing. -/
def globalDeclarations : List Instruction :=
  [⟨22, [12, 32]⟩, ⟨19, [10]⟩, ⟨32, [30, 3, 12]⟩, ⟨59, [30, 31, 3]⟩, ⟨33, [11, 10]⟩]

theorem globalDeclarations_distinct : (globalDeclarations.filterMap (Instruction.resultId? .named)).Nodup := by
  decide

/-- Which of them refers to which. -/
def globalReferences : List (Nat × Nat) :=
  [(0, 0), (1, 1), (2, 2), (2, 0), (3, 2), (3, 3), (4, 4), (4, 1)]

theorem mem_globalReferences {n m : Nat} (h : Refers .named globalDeclarations n m) :
    (n, m) ∈ globalReferences := by
  have hall : ∀ n < 5, ∀ m ∈ referred .named globalDeclarations n, (n, m) ∈ globalReferences := by decide
  obtain ⟨_, _, _, hd, _⟩ := id h
  exact hall n (List.getElem?_eq_some_iff.mp hd).1 m ((mem_referred_iff globalDeclarations_distinct).mpr h)

theorem globalDeclarations_acyclic : Acyclic .named globalDeclarations := by
  have hdown : ∀ p ∈ globalReferences, p.2 = p.1 ∨ p.2 < p.1 := by decide
  exact acyclic_of_rank id fun n m h => hdown (n, m) (mem_globalReferences h)

theorem unreferenced_functionType : Unreferenced .named globalDeclarations [31] 4 where
  declared := by decide
  notUsed d w hd hw := by
    obtain rfl := Option.some.inj hd
    obtain rfl := Option.some.inj hw
    decide
  notReferred m h := by
    have halone : ∀ p ∈ globalReferences, p.2 = 4 → p.1 = 4 := by decide
    exact halone (m, 4) (mem_globalReferences h) rfl

/-- With the variable in use, its type is placed before it, and after it the function type that is not in
use. -/
theorem globalDeclarations_unfold :
    (globalDeclarations.filterMap (Instruction.resultId? .named)).Nodup ∧ Acyclic .named globalDeclarations ∧
      [2, 3].Sublist (placement .named globalDeclarations [31]) ∧
      [3, 4].Sublist (placement .named globalDeclarations [31]) := by
  obtain ⟨-, -, -, horder⟩ := placement_unfolds .named globalDeclarations [31]
  obtain ⟨hafter, -, -, hlast⟩ := horder globalDeclarations_distinct globalDeclarations_acyclic
  have hrefers : Refers .named globalDeclarations 3 2 := ⟨_, _, 30, rfl, by decide, rfl, rfl⟩
  have hled : LedTo .named globalDeclarations [31] 3 := ⟨_, 31, rfl, rfl, .used (by decide)⟩
  exact ⟨globalDeclarations_distinct, globalDeclarations_acyclic, hafter 3 2 hrefers (by decide),
    (hlast 4 unreferenced_functionType).1 3 hled⟩

end Globals

-- an array type, whose opcode has no name here: it is placed for its use only under a table that knows it
example : placement ⟨fun _ => true, fun _ => rfl⟩ [⟨19, [1]⟩, ⟨28, [5, 7, 8]⟩] [5] = [1, 0] := by cbv

example : placement .named [⟨19, [1]⟩, ⟨28, [5, 7, 8]⟩] [5] = [0, 1] := by cbv

end ShaderLowering.Layout
