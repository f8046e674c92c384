import Mathlib.Data.List.Nodup
import Mathlib.Data.List.Perm.Subperm
import Mathlib.Data.Set.Function
import ShaderLowering.Proofs.Layout.Postorder
import ShaderLowering.Proofs.Layout.Streams

/-!
# Where declarations are placed

If no two declarations have the same result id, an id refers to the declaration that has it for a
result, whatever the order in which the declarations were made (`lookup_declarationIndex`).  If in
addition every declaration is `Reached` from the ids that the rest of the module uses, then the walk
from these ids has written down everything before it comes to the positions themselves
(`placement_of_reached`), so the positions have no say in the order: declarations that are renamed and
permuted are placed as they were, under their new names (`Rearranged.placed_map`).
-/

namespace ShaderLowering.Layout

open Spirv

/-! ## The walk -/

section Walk

variable {next next' : Nat → List Nat} {unvisited unvisited' : List Nat} {pending : List Visit}
  {m n : Nat}

/-- What the walk writes down for pending visits, it writes down first. -/
theorem postorder_prefix (pending more : List Visit) :
    postorder next unvisited pending <+: postorder next unvisited (pending ++ more) := by
  fun_induction postorder next unvisited pending with
  | case1 => exact List.nil_prefix
  | case2 unvisited node pending ih =>
    rw [List.cons_append, postorder]
    exact List.cons_prefix_cons.mpr ⟨rfl, ih⟩
  | case3 unvisited node pending hmem ih =>
    rw [List.cons_append, postorder, if_pos hmem]
    simpa using ih
  | case4 unvisited node pending hmem ih =>
    rw [List.cons_append, postorder, if_neg hmem]
    exact ih

/-- With an unvisited node the walk writes down its successors, as far as they are unvisited. -/
theorem mem_postorder_of_next (hn : n ∈ unvisited) (hleave : n ∉ leaving pending)
    (h : n ∈ postorder next unvisited pending) (hm : m ∈ unvisited) (hnext : m ∈ next n) :
    m ∈ postorder next unvisited pending := by
  fun_induction postorder next unvisited pending with
  | case1 => cases h
  | case2 unvisited node pending ih =>
    rw [leaving, List.mem_cons, not_or] at hleave
    have hlater := (List.mem_cons.mp h).resolve_left hleave.1
    exact List.mem_cons_of_mem _ (ih hn hleave.2 hlater hm)
  | case3 unvisited node pending hmem ih =>
    -- Either the successor is the node being entered, or it is still unvisited below.
    by_cases hmnode : m = node
    · subst hmnode
      exact mem_postorder_of_leave (by simp)
    have hm' : m ∈ unvisited.erase node := (List.mem_erase_of_ne hmnode).mpr hm
    -- Entering the node itself schedules its successors; any other node is met later.
    by_cases hnode : n = node
    · subst hnode
      exact mem_postorder_of_enter (by simp [hnext]) hm'
    · refine ih ((List.mem_erase_of_ne hnode).mpr hn) ?_ h hm'
      simpa [leaving, hnode] using hleave
  | case4 unvisited node pending hmem ih => exact ih hn hleave h hm

/-- The node of a visit. -/
def Visit.node : Visit → Nat
  | .enter n => n
  | .leave n => n

/-- The same visit of another node. -/
def Visit.map (f : Nat → Nat) : Visit → Visit
  | .enter n => .enter (f n)
  | .leave n => .leave (f n)

/-- Giving the nodes other numbers gives other numbers to what the walk writes down. -/
theorem postorder_map {N : Set Nat} {f : Nat → Nat} (hf : Set.InjOn f N)
    (hclosed : ∀ n ∈ N, ∀ m ∈ next n, m ∈ N)
    (hnext : ∀ n ∈ N, next' (f n) = (next n).map f) (hnodup : unvisited.Nodup)
    (hnodup' : unvisited'.Nodup) (hmem : ∀ n ∈ N, f n ∈ unvisited' ↔ n ∈ unvisited)
    (hpending : ∀ v ∈ pending, v.node ∈ N) :
    postorder next' unvisited' (pending.map (Visit.map f)) =
      (postorder next unvisited pending).map f := by
  fun_induction postorder next unvisited pending generalizing unvisited' with
  | case1 => rw [List.map_nil, postorder, List.map_nil]
  | case2 unvisited node pending ih =>
    rw [List.map_cons, Visit.map, postorder, List.map_cons,
      ih hnodup hnodup' hmem fun v hv => hpending v (List.mem_cons_of_mem _ hv)]
  | case3 unvisited node pending hin ih =>
    have hnode : node ∈ N := hpending (.enter node) List.mem_cons_self
    -- A node is unvisited under its new number if it is under its old one.
    rw [List.map_cons, Visit.map, postorder, if_pos ((hmem node hnode).mpr hin), hnext node hnode]
    have hvisits : ((next node).map f).map Visit.enter ++ .leave (f node) :: pending.map (Visit.map f) =
        ((next node).map Visit.enter ++ .leave node :: pending).map (Visit.map f) := by
      simp [Visit.map, Function.comp_def]
    rw [hvisits]
    refine ih (hnodup.erase _) (hnodup'.erase _) (fun n hn => ?_) fun v hv => ?_
    · rw [hnodup'.mem_erase_iff, hnodup.mem_erase_iff, hmem n hn, hf.ne_iff hn hnode]
    · rcases List.mem_append.mp hv with hv | hv
      · obtain ⟨m, hm, rfl⟩ := List.mem_map.mp hv
        exact hclosed node hnode m hm
      · rcases List.mem_cons.mp hv with rfl | hv
        · exact hnode
        · exact hpending v (List.mem_cons_of_mem _ hv)
  | case4 unvisited node pending hout ih =>
    have hnode : node ∈ N := hpending (.enter node) List.mem_cons_self
    rw [List.map_cons, Visit.map, postorder, if_neg (mt (hmem node hnode).mp hout)]
    exact ih hnodup hnodup' hmem fun v hv => hpending v (List.mem_cons_of_mem _ hv)

end Walk

/-! ## Declarations and their results -/

/-- The position at which a declaration has its result. -/
def resultPosition : Op → Nat
  | .constant | .variable => 1
  | _ => 0

theorem resultId?_eq (table : OpTable) {i : Instruction} {op : Op} (h : i.op? = some op) :
    i.resultId? table = i.operands[resultPosition op]? := by
  obtain hcode : i.opcode = op.code := Op.ofCode?_eq_some_iff.mp h
  rw [Instruction.resultId?, hcode, table.knows_code, if_pos rfl, h]
  cases op <;> rfl

/-- An instruction that declares a type, a constant or a variable. -/
def Declares (d : Instruction) : Prop :=
  d.op? ∈ [Op.typeVoid, .typeInt, .typeFloat, .typeVector, .typeStruct, .typePointer, .typeFunction,
    .constant, .variable].map some

variable {table : OpTable} {d : Instruction} {w : Word}

/-- A declaration has its result where its opcode has an id. -/
theorem Declares.position (h : Declares d) : ∃ p, (∀ (table : OpTable) (i : Instruction), i.op? = d.op? →
    i.resultId? table = i.operands[p]?) ∧ (p < d.operands.length → p ∈ d.idPositions) := by
  obtain ⟨op, hop, heq⟩ := List.mem_map.mp h
  refine ⟨resultPosition op, fun table i hi => resultId?_eq table (hi.trans heq.symm), fun hin => ?_⟩
  refine List.mem_filter.mpr ⟨?_, by simpa using hin⟩
  cases op <;> simp_all [Instruction.nominalIdPositions, resultPosition, ← heq]

/-- The result of a declaration is renamed with its ids. -/
theorem Declares.resultId?_mapIds (h : Declares d) (table : OpTable) (f : Word → Word) :
    (d.mapIds f).resultId? table = (d.resultId? table).map f := by
  obtain ⟨p, hresult, hposition⟩ := h.position
  rw [hresult table d rfl, hresult table (d.mapIds f) rfl, Instruction.getElem?_operands_mapIds]
  by_cases hin : p < d.operands.length
  · simp [hposition hin]
  · simp [List.getElem?_eq_none (Nat.le_of_not_lt hin)]

/-- The result of a declaration is one of its ids. -/
theorem Declares.mem_ids (h : Declares d) (hw : d.resultId? table = some w) : w ∈ d.ids := by
  obtain ⟨p, hresult, hposition⟩ := h.position
  rw [hresult table d rfl] at hw
  exact List.mem_filterMap.mpr ⟨p, hposition (List.getElem?_eq_some_iff.mp hw).1, hw⟩

/-- Whichever other opcodes are known, declarations have the same results. -/
theorem Declares.resultId?_table (h : Declares d) (table table' : OpTable) :
    d.resultId? table = d.resultId? table' := by
  obtain ⟨p, hresult, -⟩ := h.position
  rw [hresult table d rfl, hresult table' d rfl]

/-- Declarations are placed by their results, so no other opcodes matter. -/
theorem placed_table {declarations : List Instruction} (h : ∀ d ∈ declarations, Declares d)
    (table table' : OpTable) (used : List Word) :
    placed table declarations used = placed table' declarations used := by
  have hindex : declarationIndex table declarations = declarationIndex table' declarations := by
    rw [declarationIndex, declarationIndex]
    refine congrArg List.reverse (List.filterMap_congr fun (d, position) hmem => ?_)
    simp only [(h d (List.fst_mem_of_mem_zipIdx hmem)).resultId?_table table table']
  rw [placed, placement, hindex, placed, placement]

/-! ## What ids refer to -/

section Index

variable {declarations : List Instruction} {used : List Word} {v : Word} {n : Nat}

/-- Where keys are distinct, a key is looked up to what stands with it. -/
theorem lookup_eq_some_iff_mem {α β : Type} [BEq α] [LawfulBEq α] {l : List (α × β)}
    (hnodup : (l.map Prod.fst).Nodup) {a : α} {b : β} : l.lookup a = some b ↔ (a, b) ∈ l := by
  induction l with
  | nil => simp
  | cons e l ih =>
    obtain ⟨hnew, hrest⟩ := List.nodup_cons.mp hnodup
    obtain ⟨k, v⟩ := e
    by_cases ha : a = k
    · subst ha
      have hnone : (a, b) ∉ l := fun hmem => hnew (List.mem_map.mpr ⟨_, hmem, rfl⟩)
      simp [hnone, eq_comm]
    · rw [List.lookup_cons, beq_eq_false_iff_ne.mpr ha]
      simpa [ha] using ih hrest

/-- Where results are distinct, an id refers to the one declaration that has it for its result. -/
theorem lookup_declarationIndex (hdistinct : (declarations.filterMap (Instruction.resultId? table)).Nodup) :
    (declarationIndex table declarations).lookup w = some n ↔
      ∃ d, declarations[n]? = some d ∧ d.resultId? table = some w := by
  -- The index has the results for its keys, in reverse, so no key comes twice.
  have hkeys : (declarationIndex table declarations).map Prod.fst =
      (declarations.filterMap (Instruction.resultId? table)).reverse := by
    rw [declarationIndex, List.map_reverse, List.map_filterMap]
    congr 1
    conv_rhs => rw [← List.zipIdx_map_fst 0 declarations, List.filterMap_map]
    exact List.filterMap_congr fun p _ => by simp [Option.map_map, Function.comp_def]
  rw [lookup_eq_some_iff_mem (by rw [hkeys]; exact List.nodup_reverse.mpr hdistinct),
    declarationIndex, List.mem_reverse, List.mem_filterMap]
  constructor
  · rintro ⟨⟨d, m⟩, hmem, heq⟩
    obtain ⟨v, hv, heq⟩ := Option.map_eq_some_iff.mp heq
    obtain ⟨rfl, rfl⟩ := Prod.mk.inj heq
    exact ⟨d, List.mk_mem_zipIdx_iff_getElem?.mp hmem, hv⟩
  · rintro ⟨d, hd, hresult⟩
    exact ⟨(d, n), List.mk_mem_zipIdx_iff_getElem?.mpr hd, by simp [hresult]⟩

/-- The ids that used ids lead to through declarations. -/
inductive Reached (table : OpTable) (declarations : List Instruction) (used : List Word) : Word → Prop
  | used {w : Word} (hw : w ∈ used) : Reached table declarations used w
  | refers {d : Instruction} {v w : Word} (hd : d ∈ declarations) (hresult : d.resultId? table = some v)
      (hv : Reached table declarations used v) (hw : w ∈ d.ids) : Reached table declarations used w

/-- Every declaration has a result that used ids lead to. -/
def AllReached (table : OpTable) (declarations : List Instruction) (used : List Word) : Prop :=
  ∀ d ∈ declarations, ∃ w, d.resultId? table = some w ∧ Reached table declarations used w

theorem mem_references {m : Nat} (hd : declarations[n]? = some d) (hw : w ∈ d.ids)
    (hm : (declarationIndex table declarations).lookup w = some m) :
    m ∈ references (declarationIndex table declarations) declarations n := by
  rw [references, hd]
  exact List.mem_filterMap.mpr ⟨w, hw, hm⟩

/-- If every declaration is reached, the walk from the used ids places them all. -/
theorem placement_of_reached (hdistinct : (declarations.filterMap (Instruction.resultId? table)).Nodup)
    (hreached : AllReached table declarations used) :
    placement table declarations used =
      postorder (references (declarationIndex table declarations) declarations)
        (List.range declarations.length)
        ((declarationsOf (declarationIndex table declarations) used).map .enter) := by
  set index := declarationIndex table declarations with hindex
  set walk := postorder (references index declarations) (List.range declarations.length)
    ((declarationsOf index used).map .enter) with hwalk
  have hvalid : ∀ {w n}, index.lookup w = some n → n ∈ List.range declarations.length := by
    intro w n hn
    obtain ⟨d, hd, -⟩ := (lookup_declarationIndex hdistinct).mp hn
    exact List.mem_range.mpr (List.getElem?_eq_some_iff.mp hd).1
  have hwritten : ∀ w, Reached table declarations used w → ∀ n, index.lookup w = some n → n ∈ walk := by
    intro w hw
    induction hw with
    | used hw =>
      intro n hn
      have henter : n ∈ declarationsOf index used := List.mem_filterMap.mpr ⟨_, hw, hn⟩
      exact mem_postorder_of_enter (List.mem_map_of_mem henter) (hvalid hn)
    | @refers d v w hd hresult _ hw ih =>
      intro n hn
      obtain ⟨m, hm⟩ := List.mem_iff_getElem?.mp hd
      have hlookup : index.lookup v = some m := (lookup_declarationIndex hdistinct).mpr ⟨d, hm, hresult⟩
      exact mem_postorder_of_next (hvalid hlookup) (by simp) (ih m hlookup) (hvalid hn)
        (mem_references hm hw hn)
  have hall : ∀ n ∈ List.range declarations.length, n ∈ walk := by
    intro n hn
    have hget := List.getElem?_eq_getElem (List.mem_range.mp hn)
    obtain ⟨w, hresult, hw⟩ := hreached _ (List.getElem_mem (List.mem_range.mp hn))
    exact hwritten w hw n ((lookup_declarationIndex hdistinct).mpr ⟨_, hget, hresult⟩)
  have hbegins : walk <+: placement table declarations used := by
    rw [placement, List.map_append]
    exact postorder_prefix _ _
  refine (hbegins.eq_of_length ?_).symm
  refine Nat.le_antisymm hbegins.length_le ?_
  rw [(placement_perm table declarations used).length_eq]
  exact (List.subperm_of_subset List.nodup_range hall).length_le

end Index

/-! ## Renamed declarations -/

/-- Declarations told apart by their results and all reached from the used ids, and the same
declarations renamed and permuted. -/
structure Rearranged (table : OpTable) (declarations declarations' : List Instruction)
    (used : List Word) (r : Word → Word) : Prop where
  declares : ∀ d ∈ declarations, Declares d
  distinct : (declarations.filterMap (Instruction.resultId? table)).Nodup
  reached : AllReached table declarations used
  injOn : Set.InjOn r {w | w ∈ used ++ declarations.flatMap Instruction.ids}
  perm : declarations'.Perm (declarations.map (Instruction.mapIds r))

/-- Where a declaration stands after it has been renamed and moved. -/
def newPosition (declarations declarations' : List Instruction) (r : Word → Word) (n : Nat) : Nat :=
  match declarations[n]? with
  | some d => declarations'.idxOf (d.mapIds r)
  | none => 0

namespace Rearranged

variable {declarations declarations' : List Instruction} {used : List Word} {r : Word → Word} {n : Nat}

theorem mem_of_mem_ids (hd : d ∈ declarations) (hw : w ∈ d.ids) :
    w ∈ used ++ declarations.flatMap Instruction.ids :=
  List.mem_append_right _ (List.mem_flatMap.mpr ⟨d, hd, hw⟩)

variable (h : Rearranged table declarations declarations' used r)

include h

theorem resultId?_mapIds (hd : d ∈ declarations) : (d.mapIds r).resultId? table = (d.resultId? table).map r :=
  (h.declares d hd).resultId?_mapIds table r

theorem mem_of_result (hd : d ∈ declarations) (hw : d.resultId? table = some w) :
    w ∈ used ++ declarations.flatMap Instruction.ids :=
  mem_of_mem_ids hd ((h.declares d hd).mem_ids hw)

/-- Results that are distinct are distinct under their new names. -/
theorem distinct_map : (declarations'.filterMap (Instruction.resultId? table)).Nodup := by
  have hresults : (declarations.map (Instruction.mapIds r)).filterMap (Instruction.resultId? table) =
      (declarations.filterMap (Instruction.resultId? table)).map r := by
    rw [List.filterMap_map, List.map_filterMap]
    exact List.filterMap_congr fun d hd => h.resultId?_mapIds hd
  have hids : ∀ w ∈ declarations.filterMap (Instruction.resultId? table),
      w ∈ used ++ declarations.flatMap Instruction.ids := by
    intro w hw
    obtain ⟨d, hd, hresult⟩ := List.mem_filterMap.mp hw
    exact h.mem_of_result hd hresult
  rw [(h.perm.filterMap _).nodup_iff, hresults, List.nodup_map_iff_inj_on h.distinct]
  exact fun v hv w hw heq => h.injOn (hids v hv) (hids w hw) heq

/-- What is reached is reached under its new name. -/
theorem reached_map (hw : Reached table declarations used w) :
    Reached table declarations' (used.map r) (r w) := by
  induction hw with
  | used hw => exact .used (List.mem_map_of_mem hw)
  | @refers d v w hd hresult _ hw ih =>
    refine .refers (h.perm.mem_iff.mpr (List.mem_map_of_mem hd)) ?_ ih ?_
    · rw [h.resultId?_mapIds hd, hresult, Option.map_some]
    · rw [Instruction.ids_mapIds]
      exact List.mem_map_of_mem hw

theorem allReached_map : AllReached table declarations' (used.map r) := by
  intro d' hd'
  obtain ⟨d, hd, rfl⟩ := List.mem_map.mp (h.perm.mem_iff.mp hd')
  obtain ⟨w, hresult, hw⟩ := h.reached d hd
  refine ⟨r w, ?_, h.reached_map hw⟩
  rw [h.resultId?_mapIds hd, hresult, Option.map_some]

theorem getElem?_newPosition (hd : declarations[n]? = some d) :
    declarations'[newPosition declarations declarations' r n]? = some (d.mapIds r) := by
  have hmem : d.mapIds r ∈ declarations' :=
    h.perm.mem_iff.mpr (List.mem_map_of_mem (List.mem_of_getElem? hd))
  rw [newPosition, hd, List.getElem?_eq_getElem (List.idxOf_lt_length_of_mem hmem),
    List.getElem_idxOf]

/-- A new name refers to where the declaration of the old one stands now. -/
theorem lookup_newPosition (hn : (declarationIndex table declarations).lookup w = some n) :
    (declarationIndex table declarations').lookup (r w) =
      some (newPosition declarations declarations' r n) := by
  obtain ⟨d, hd, hresult⟩ := (lookup_declarationIndex h.distinct).mp hn
  refine (lookup_declarationIndex h.distinct_map).mpr ⟨_, h.getElem?_newPosition hd, ?_⟩
  rw [h.resultId?_mapIds (List.mem_of_getElem? hd), hresult, Option.map_some]

/-- If a new name refers to a declaration, so did the old one. -/
theorem exists_lookup_of_map (hw : w ∈ used ++ declarations.flatMap Instruction.ids)
    (hn : (declarationIndex table declarations').lookup (r w) = some n) :
    ∃ m, (declarationIndex table declarations).lookup w = some m := by
  obtain ⟨d', hd', hresult'⟩ := (lookup_declarationIndex h.distinct_map).mp hn
  obtain ⟨d, hd, rfl⟩ := List.mem_map.mp (h.perm.mem_iff.mp (List.mem_of_getElem? hd'))
  rw [h.resultId?_mapIds hd, Option.map_eq_some_iff] at hresult'
  obtain ⟨v, hresult, hv⟩ := hresult'
  obtain rfl : v = w := h.injOn (h.mem_of_result hd hresult) hw hv
  obtain ⟨m, hm⟩ := List.mem_iff_getElem?.mp hd
  exact ⟨m, (lookup_declarationIndex h.distinct).mpr ⟨d, hm, hresult⟩⟩

theorem declarationsOf_map {ws : List Word}
    (hws : ∀ w ∈ ws, w ∈ used ++ declarations.flatMap Instruction.ids) :
    declarationsOf (declarationIndex table declarations') (ws.map r) =
      (declarationsOf (declarationIndex table declarations) ws).map
        (newPosition declarations declarations' r) := by
  rw [declarationsOf, List.filterMap_map, declarationsOf, List.map_filterMap]
  refine List.filterMap_congr fun w hw => ?_
  cases hlookup : (declarationIndex table declarations).lookup w with
  | some n => exact h.lookup_newPosition hlookup
  | none =>
    refine Option.eq_none_iff_forall_not_mem.mpr fun n hn => ?_
    obtain ⟨m, hm⟩ := h.exists_lookup_of_map (hws w hw) hn
    rw [hlookup] at hm
    cases hm

theorem references_newPosition (hn : n < declarations.length) :
    references (declarationIndex table declarations') declarations'
        (newPosition declarations declarations' r n) =
      (references (declarationIndex table declarations) declarations n).map
        (newPosition declarations declarations' r) := by
  have hd := List.getElem?_eq_getElem hn
  rw [references, h.getElem?_newPosition hd, references, hd]
  simp only [Instruction.ids_mapIds]
  exact h.declarationsOf_map fun w hw => mem_of_mem_ids (List.getElem_mem hn) hw

/-- Different declarations stand at different positions, before and after. -/
theorem newPosition_injOn :
    Set.InjOn (newPosition declarations declarations' r) {n | n < declarations.length} := by
  intro m hm n hn heq
  obtain ⟨v, hv, -⟩ := h.reached _ (List.getElem_mem hm)
  obtain ⟨w, hw, -⟩ := h.reached _ (List.getElem_mem hn)
  have hm' := h.getElem?_newPosition (List.getElem?_eq_getElem hm)
  have hn' := h.getElem?_newPosition (List.getElem?_eq_getElem hn)
  -- The two declarations have one new name for their results, hence one old name.
  have hsame : some (r v) = some (r w) := by
    rw [← Option.map_some, ← hv, ← h.resultId?_mapIds (List.getElem_mem hm), ← Option.map_some,
      ← hw, ← h.resultId?_mapIds (List.getElem_mem hn)]
    rw [heq, hn'] at hm'
    rw [Option.some.inj hm']
  have hvw : v = w := h.injOn (h.mem_of_result (List.getElem_mem hm) hv)
    (h.mem_of_result (List.getElem_mem hn) hw) (Option.some.inj hsame)
  have hm'' := (lookup_declarationIndex h.distinct).mpr ⟨_, List.getElem?_eq_getElem hm, hv⟩
  have hn'' := (lookup_declarationIndex h.distinct).mpr ⟨_, List.getElem?_eq_getElem hn, hw⟩
  rw [hvw, hn''] at hm''
  exact (Option.some.inj hm'').symm

/-- The walk comes to the declarations in the same order, wherever they stand. -/
theorem placement_map : placement table declarations' (used.map r) =
    (placement table declarations used).map (newPosition declarations declarations' r) := by
  have hlength : declarations'.length = declarations.length := by
    rw [h.perm.length_eq, List.length_map]
  have hvalid : ∀ {w n}, (declarationIndex table declarations).lookup w = some n →
      n < declarations.length := by
    intro w n hn
    obtain ⟨d, hd, -⟩ := (lookup_declarationIndex h.distinct).mp hn
    exact (List.getElem?_eq_some_iff.mp hd).1
  have hplace : ∀ {n}, n < declarations.length →
      newPosition declarations declarations' r n < declarations.length := by
    intro n hn
    have hget := h.getElem?_newPosition (List.getElem?_eq_getElem hn)
    rw [← hlength]
    exact (List.getElem?_eq_some_iff.mp hget).1
  -- Everything is reached, so the visits scheduled for the sake of the rest find nothing left.
  rw [placement_of_reached h.distinct_map h.allReached_map,
    placement_of_reached h.distinct h.reached,
    h.declarationsOf_map fun w hw => List.mem_append_left _ hw, hlength]
  have hvisits : ∀ ns : List Nat,
      (ns.map (newPosition declarations declarations' r)).map Visit.enter =
        (ns.map Visit.enter).map (Visit.map (newPosition declarations declarations' r)) := by
    simp [Function.comp_def, Visit.map]
  rw [hvisits]
  refine postorder_map (N := {n | n < declarations.length}) h.newPosition_injOn ?_
    (fun n hn => h.references_newPosition hn) List.nodup_range List.nodup_range ?_ ?_
  -- References stay among the declarations, which is what the renumbering is injective on.
  · intro n hn m hm
    rw [references, List.getElem?_eq_getElem hn] at hm
    obtain ⟨w, -, hm⟩ := List.mem_filterMap.mp hm
    exact hvalid hm
  · intro n hn
    rw [List.mem_range, List.mem_range]
    exact ⟨fun _ => hn, fun hn => hplace hn⟩
  · intro v hv
    obtain ⟨n, hn, rfl⟩ := List.mem_map.mp hv
    obtain ⟨w, -, hn⟩ := List.mem_filterMap.mp hn
    exact hvalid hn

/-- Declarations that are renamed and permuted are placed as they were, under their new names. -/
theorem placed_map :
    placed table declarations' (used.map r) =
      (placed table declarations used).map (Instruction.mapIds r) := by
  rw [placed, h.placement_map, List.filterMap_map, placed, List.map_filterMap]
  refine List.filterMap_congr fun n hn => ?_
  have hin : n < declarations.length := by
    simpa using (placement_perm table declarations used).mem_iff.mp hn
  rw [Function.comp_apply, List.getElem?_eq_getElem hin,
    h.getElem?_newPosition (List.getElem?_eq_getElem hin), Option.map_some]

end Rearranged

end ShaderLowering.Layout
