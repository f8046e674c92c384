import ShaderLowering.Proofs.Layout.Canonical
import ShaderLowering.Proofs.Layout.Placement

/-!
# The layout is a canonical form

Two inputs of the layout that differ only in the numbers of their ids, in the order of the declarations
and in the order of the annotations have the same layout (`canonicalize_forgets`), provided that
nothing is left to these orders: the declarations are told apart by their results and all reached from
the header and the bodies, and the annotations have no ids of their own.

The three passes of the layout each forget one of the differences.  Placement forgets the order of the
declarations (`Rearranged.placed_map`), numbering by first appearance forgets the old numbers
(`newId_map`), and sorting forgets the order of the annotations (`mergeSort_eq_of_perm`).
-/

namespace ShaderLowering.Layout

open Spirv

/-! ## Numbering and sorting -/

section Appearances

variable {α β : Type} [DecidableEq α] [DecidableEq β] {xs ys : List α} {r : α → β} {x : α}

theorem firstAppearances_append (xs ys : List α) :
    firstAppearances (xs ++ ys) =
      firstAppearances xs ++ (firstAppearances ys).filter (· ∉ xs) := by
  induction xs with
  | nil => simp [firstAppearances]
  | cons x xs ih =>
    simp only [List.cons_append, firstAppearances, ih, List.filter_append, List.filter_filter]
    congr 2
    exact List.filter_congr fun y _ => by simp

/-- Members that have appeared before are no first appearances. -/
theorem firstAppearances_append_of_subset (h : ∀ y ∈ ys, y ∈ xs) :
    firstAppearances (xs ++ ys) = firstAppearances xs := by
  have hnone : (firstAppearances ys).filter (· ∉ xs) = [] := by
    refine List.filter_eq_nil_iff.mpr fun y hy => ?_
    simpa using h y (mem_firstAppearances.mp hy)
  rw [firstAppearances_append, hnone, List.append_nil]

/-- First appearances are first appearances under other names. -/
theorem firstAppearances_map (hr : Set.InjOn r {x | x ∈ xs}) :
    firstAppearances (xs.map r) = (firstAppearances xs).map r := by
  induction xs with
  | nil => rfl
  | cons x xs ih =>
    have hrest : Set.InjOn r {x | x ∈ xs} := hr.mono fun y hy => List.mem_cons_of_mem x hy
    simp only [List.map_cons, firstAppearances, ih hrest, List.filter_map]
    congr 2
    refine List.filter_congr fun y hy => ?_
    have hin : y ∈ x :: xs := List.mem_cons_of_mem x (mem_firstAppearances.mp hy)
    have hiff := hr.eq_iff hin (List.mem_cons_self : x ∈ x :: xs)
    simp [hiff]

theorem idxOf_map (hr : Set.InjOn r {x | x ∈ xs}) (hx : x ∈ xs) :
    (xs.map r).idxOf (r x) = xs.idxOf x := by
  induction xs with
  | nil => cases hx
  | cons y xs ih =>
    have hiff := hr.eq_iff (List.mem_cons_self : y ∈ y :: xs) hx
    by_cases heq : y = x
    · simp [heq]
    · have hrest : Set.InjOn r {x | x ∈ xs} := hr.mono fun z hz => List.mem_cons_of_mem y hz
      have hlater : x ∈ xs := (List.mem_cons.mp hx).resolve_left (Ne.symm heq)
      rw [List.map_cons, List.idxOf_cons_ne _ (mt hiff.mp heq), List.idxOf_cons_ne _ heq,
        ih hrest hlater]

/-- The place of a member among the first appearances does not depend on what it is called. -/
theorem idxOf_firstAppearances_map (hr : Set.InjOn r {x | x ∈ xs}) (hx : x ∈ xs) :
    (firstAppearances (xs.map r)).idxOf (r x) = (firstAppearances xs).idxOf x := by
  have hsame : ∀ y, y ∈ firstAppearances xs ↔ y ∈ xs := fun y => mem_firstAppearances
  rw [firstAppearances_map hr,
    idxOf_map (hr.mono fun y hy => (hsame y).mp hy) ((hsame x).mpr hx)]

end Appearances

/-- The new number of an id does not depend on the old one. -/
theorem newId_map {ws : List Word} {r : Word → Word} {w : Word} (hr : Set.InjOn r {w | w ∈ ws})
    (hw : w ∈ ws) :
    newId (firstAppearances (ws.map r)) (r w) = newId (firstAppearances ws) w := by
  rw [newId, newId, idxOf_firstAppearances_map hr hw]

/-- Sorting instructions forgets their order. -/
theorem mergeSort_eq_of_perm {is js : List Instruction} (h : is.Perm js) :
    is.mergeSort instructionLe = js.mergeSort instructionLe := by
  have hsorted : ∀ ks : List Instruction,
      (ks.mergeSort instructionLe).Pairwise fun i j => instructionLe i j = true :=
    List.pairwise_mergeSort instructionLe_trans instructionLe_total
  refine List.Perm.eq_of_pairwise (fun i j _ _ => instructionLe_antisymm i j) (hsorted is)
    (hsorted js) ?_
  exact (List.mergeSort_perm is _).trans (h.trans (List.mergeSort_perm js _).symm)

theorem idsOf_map (r : Word → Word) (is : List Instruction) :
    idsOf (is.map (Instruction.mapIds r)) = (idsOf is).map r := by
  simp [idsOf, List.flatMap_map, List.map_flatMap, Instruction.ids_mapIds]

/-- Numbering instructions anew forgets the numbers that they had. -/
theorem renumber_map {ids : List Word} {r : Word → Word} (hr : Set.InjOn r {w | w ∈ ids})
    {is : List Instruction} (his : ∀ w ∈ idsOf is, w ∈ ids) :
    (is.map (Instruction.mapIds r)).map
        (Instruction.mapIds (newId (firstAppearances (ids.map r)))) =
      is.map (Instruction.mapIds (newId (firstAppearances ids))) := by
  rw [List.map_map]
  refine List.map_congr_left fun i hi => ?_
  rw [Function.comp_apply, Instruction.mapIds_mapIds]
  refine Instruction.mapIds_congr fun w hw => ?_
  exact newId_map hr (his w (List.mem_flatMap.mpr ⟨i, hi, hw⟩))

/-! ## After placement -/

/-- The layout of instructions whose declarations are placed already. -/
def numbered (header annotations declarations functions : List Instruction) : List Word × Word :=
  let distinct := firstAppearances (idsOf (header ++ declarations ++ functions ++ annotations))
  let renumber := List.map (Instruction.mapIds (newId distinct))
  ((renumber header ++ (renumber annotations).mergeSort instructionLe ++ renumber declarations ++
    renumber functions).flatMap Instruction.encode, UInt32.ofNat (distinct.length + 1))

/-- Renaming all ids and permuting the annotations does not change the layout, if the annotations have
no ids of their own. -/
theorem numbered_map {header annotations annotations' declarations functions : List Instruction}
    {r : Word → Word}
    (hr : Set.InjOn r {w | w ∈ idsOf (header ++ declarations ++ functions)})
    (hperm : annotations'.Perm (annotations.map (Instruction.mapIds r)))
    (hannotated : ∀ w ∈ idsOf annotations, w ∈ idsOf (header ++ declarations ++ functions)) :
    numbered (header.map (Instruction.mapIds r)) annotations'
        (declarations.map (Instruction.mapIds r)) (functions.map (Instruction.mapIds r)) =
      numbered header annotations declarations functions := by
  set ids := idsOf (header ++ declarations ++ functions) with hids
  -- The annotations come last, so they take no part in the numbering.
  have hdistinct : firstAppearances (idsOf (header ++ declarations ++ functions ++ annotations)) =
      firstAppearances ids := by
    rw [idsOf_append, ← hids]
    exact firstAppearances_append_of_subset hannotated
  have hdistinct' : firstAppearances (idsOf (header.map (Instruction.mapIds r) ++
      declarations.map (Instruction.mapIds r) ++ functions.map (Instruction.mapIds r) ++
      annotations')) = firstAppearances (ids.map r) := by
    rw [← List.map_append, ← List.map_append, idsOf_append, idsOf_map, ← hids]
    refine firstAppearances_append_of_subset fun v hv => ?_
    rw [mem_idsOf_of_perm hperm, idsOf_map] at hv
    obtain ⟨w, hw, rfl⟩ := List.mem_map.mp hv
    exact List.mem_map_of_mem (hannotated w hw)
  have hsorted : (annotations'.map
        (Instruction.mapIds (newId (firstAppearances (ids.map r))))).mergeSort instructionLe =
      (annotations.map (Instruction.mapIds (newId (firstAppearances ids)))).mergeSort
        instructionLe := by
    rw [← renumber_map hr hannotated]
    exact mergeSort_eq_of_perm (hperm.map _)
  have hlength : (firstAppearances (ids.map r)).length = (firstAppearances ids).length := by
    rw [firstAppearances_map hr, List.length_map]
  have hheader : ∀ w ∈ idsOf header, w ∈ ids := fun w hw => by simp [hids, hw]
  have hdeclarations : ∀ w ∈ idsOf declarations, w ∈ ids := fun w hw => by simp [hids, hw]
  have hfunctions : ∀ w ∈ idsOf functions, w ∈ ids := fun w hw => by simp [hids, hw]
  unfold numbered
  simp only [hdistinct, hdistinct', hsorted, hlength, renumber_map hr hheader,
    renumber_map hr hdeclarations, renumber_map hr hfunctions]

/-- The layout of instructions. -/
def laidOut (table : OpTable) (header annotations declarations functions : List Instruction) :
    List Word × Word :=
  numbered header annotations (placed table declarations (idsOf (header ++ functions))) functions

/-- Renaming all ids and permuting the declarations and the annotations does not change the layout, if
nothing is left to the order of the one or the other. -/
theorem laidOut_map {table : OpTable} {r : Word → Word}
    {header annotations annotations' declarations declarations' functions : List Instruction}
    (hr : Set.InjOn r {w | w ∈ idsOf (header ++ declarations ++ functions)})
    (hdeclarations : Rearranged table declarations declarations' (idsOf (header ++ functions)) r)
    (hannotations : annotations'.Perm (annotations.map (Instruction.mapIds r)))
    (hannotated : ∀ w ∈ idsOf annotations, w ∈ idsOf (header ++ declarations ++ functions)) :
    laidOut table (header.map (Instruction.mapIds r)) annotations' declarations'
        (functions.map (Instruction.mapIds r)) =
      laidOut table header annotations declarations functions := by
  have hsame : ∀ w, w ∈ idsOf (header ++ placed table declarations (idsOf (header ++ functions)) ++
      functions) ↔ w ∈ idsOf (header ++ declarations ++ functions) := fun w =>
    mem_idsOf_of_perm (((placed_perm _ _ _).append_left _).append_right _)
  have hplaced := hdeclarations.placed_map
  rw [← idsOf_map, List.map_append] at hplaced
  rw [laidOut, hplaced, laidOut]
  exact numbered_map (hr.mono fun w hw => (hsame w).mp hw) hannotations fun w hw =>
    (hsame w).mpr (hannotated w hw)

/-! ## Inputs that are alike -/

/-- All instructions of function bodies. -/
abbrev functionsOf (bodies : List (List Word)) : List Instruction :=
  bodies.flatMap Instruction.decode

theorem canonicalize_eq_laidOut (table : OpTable) (sections : Sections) (bodies : List (List Word)) :
    canonicalize table sections bodies =
      laidOut table (Instruction.decode sections.header) (Instruction.decode sections.annotations)
        (Instruction.decode sections.declarations) (functionsOf bodies) :=
  rfl

/-- Where every declaration has an opcode with a name, it makes no difference which others are known. -/
theorem canonicalize_table {sections : Sections}
    (hdeclares : ∀ d ∈ Instruction.decode sections.declarations, Declares d) (table table' : OpTable)
    (bodies : List (List Word)) :
    canonicalize table sections bodies = canonicalize table' sections bodies := by
  rw [canonicalize_eq_laidOut, laidOut, placed_table hdeclares table table', canonicalize_eq_laidOut, laidOut]

/-- One input of the layout is another one with its ids renamed and its declarations and annotations
permuted.  What does not decode is no part of it. -/
structure Alike (r : Word → Word) (sections : Sections) (bodies : List (List Word))
    (sections' : Sections) (bodies' : List (List Word)) : Prop where
  header : Instruction.decode sections'.header =
    (Instruction.decode sections.header).map (Instruction.mapIds r)
  annotations : (Instruction.decode sections'.annotations).Perm
    ((Instruction.decode sections.annotations).map (Instruction.mapIds r))
  declarations : (Instruction.decode sections'.declarations).Perm
    ((Instruction.decode sections.declarations).map (Instruction.mapIds r))
  functions : bodies'.map Instruction.decode =
    bodies.map fun body => (Instruction.decode body).map (Instruction.mapIds r)
  injective : Set.InjOn r {w | w ∈ idsOf (Instruction.decode sections.header ++
    Instruction.decode sections.annotations ++ Instruction.decode sections.declarations ++
    functionsOf bodies)}

/-- Nothing in an input of the layout is held in its place by the order of the declarations or of the
annotations alone. -/
structure Referenced (table : OpTable) (sections : Sections) (bodies : List (List Word)) : Prop where
  declares : ∀ d ∈ Instruction.decode sections.declarations, Declares d
  distinct : ((Instruction.decode sections.declarations).filterMap (Instruction.resultId? table)).Nodup
  reached : AllReached table (Instruction.decode sections.declarations)
    (idsOf (Instruction.decode sections.header ++ functionsOf bodies))
  annotated : ∀ w ∈ idsOf (Instruction.decode sections.annotations),
    w ∈ idsOf (Instruction.decode sections.header ++ Instruction.decode sections.declarations ++
      functionsOf bodies)

section Alike

variable {table : OpTable} {sections sections' : Sections} {bodies bodies' : List (List Word)}
  {r : Word → Word}

namespace Alike

theorem functionsOf_eq (h : Alike r sections bodies sections' bodies') :
    functionsOf bodies' = (functionsOf bodies).map (Instruction.mapIds r) := by
  rw [functionsOf, functionsOf, List.flatMap_def, h.functions, List.flatMap_def, List.map_flatten,
    List.map_map]
  rfl

theorem rearranged (h : Alike r sections bodies sections' bodies')
    (hreferenced : Referenced table sections bodies) :
    Rearranged table (Instruction.decode sections.declarations) (Instruction.decode sections'.declarations)
      (idsOf (Instruction.decode sections.header ++ functionsOf bodies)) r := by
  refine ⟨hreferenced.declares, hreferenced.distinct, hreferenced.reached, ?_, h.declarations⟩
  refine h.injective.mono fun w hw => ?_
  change w ∈ _ ++ idsOf _ at hw
  simp only [Set.mem_ofPred_eq, idsOf_append, List.mem_append] at hw ⊢
  tauto

end Alike

/-- Inputs of the layout that are alike have the same layout, if nothing in them is held in its place
by the order of the declarations or of the annotations alone. -/
theorem canonicalize_forgets (halike : Alike r sections bodies sections' bodies')
    (hreferenced : Referenced table sections bodies) :
    canonicalize table sections' bodies' = canonicalize table sections bodies := by
  rw [canonicalize_eq_laidOut, halike.header, halike.functionsOf_eq, canonicalize_eq_laidOut]
  refine laidOut_map ?_ (halike.rearranged hreferenced) halike.annotations hreferenced.annotated
  refine halike.injective.mono fun w hw => ?_
  simp only [Set.mem_ofPred_eq, idsOf_append, List.mem_append] at hw ⊢
  tauto

end Alike

/-! ## A fragment stage with one output -/

/-- The entry point of a stage: its name is "main", and its interface is one variable. -/
def stageEntry : Instruction :=
  ⟨Op.entryPoint.code, [4, 40, 0x6e69616d, 0, 31]⟩

/-- The variable of a stage has a location. -/
def stageLocation : Instruction :=
  ⟨Op.decorate.code, [31, 30, 0]⟩

/-- The declarations of a stage in the order in which they were made: a variable of the type float, and
the type of a function without parameters. -/
def stageDeclarations : List Instruction :=
  [⟨Op.typeFloat.code, [12, 32]⟩, ⟨Op.typeVoid.code, [10]⟩, ⟨Op.typePointer.code, [30, 3, 12]⟩,
    ⟨Op.variable.code, [30, 31, 3]⟩, ⟨Op.typeFunction.code, [11, 10]⟩]

/-- The function of a stage, which returns at once. -/
def stageFunction : List Instruction :=
  [⟨Op.function.code, [10, 40, 0, 11]⟩, ⟨Op.label.code, [41]⟩, ⟨Op.ret.code, []⟩,
    ⟨Op.functionEnd.code, []⟩]

/-- The words of instructions under other ids. -/
def wordsUnder (r : Word → Word) (is : List Instruction) : List Word :=
  (is.map (Instruction.mapIds r)).flatMap Instruction.encode

/-- The sections of a stage under other ids, with its declarations in some order. -/
def stage (r : Word → Word) (declarations : List Instruction) : Sections :=
  ⟨wordsUnder r [stageEntry], wordsUnder r [stageLocation], wordsUnder r declarations⟩

theorem decode_wordsUnder (r : Word → Word) {is : List Instruction} (h : ∀ i ∈ is, i.Fits) :
    Instruction.decode (wordsUnder r is) = is.map (Instruction.mapIds r) := by
  refine Instruction.decode_flatMap_encode fun i hi => ?_
  obtain ⟨j, hj, rfl⟩ := List.mem_map.mp hi
  exact Instruction.fits_mapIds.mpr (h j hj)

/-- A stage is like itself under other ids and with its declarations in any order. -/
theorem stage_alike {r : Word → Word} (hr : Function.Injective r) {declarations : List Instruction}
    (hperm : declarations.Perm stageDeclarations) :
    Alike r (stage id stageDeclarations) [wordsUnder id stageFunction] (stage r declarations)
      [wordsUnder r stageFunction] := by
  have hentry : ∀ i ∈ [stageEntry], i.Fits := by unfold Instruction.Fits; decide
  have hlocation : ∀ i ∈ [stageLocation], i.Fits := by unfold Instruction.Fits; decide
  have hfunction : ∀ i ∈ stageFunction, i.Fits := by unfold Instruction.Fits; decide
  have hdeclarations : ∀ i ∈ stageDeclarations, i.Fits := by unfold Instruction.Fits; decide
  have hrename : ∀ is : List Instruction,
      is.map (Instruction.mapIds r) = (is.map (Instruction.mapIds id)).map (Instruction.mapIds r) := by
    intro is
    rw [List.map_map]
    exact List.map_congr_left fun i _ => (Instruction.mapIds_mapIds id r i).symm
  constructor
  case header =>
    change Instruction.decode (wordsUnder r _) = (Instruction.decode (wordsUnder id _)).map _
    rw [decode_wordsUnder r hentry, decode_wordsUnder id hentry, hrename]
  case annotations =>
    change (Instruction.decode (wordsUnder r _)).Perm ((Instruction.decode (wordsUnder id _)).map _)
    rw [decode_wordsUnder r hlocation, decode_wordsUnder id hlocation, hrename]
  case declarations =>
    change (Instruction.decode (wordsUnder r _)).Perm ((Instruction.decode (wordsUnder id _)).map _)
    rw [decode_wordsUnder r fun i hi => hdeclarations i (hperm.mem_iff.mp hi),
      decode_wordsUnder id hdeclarations, hrename declarations]
    exact (hperm.map _).map _
  case functions =>
    rw [List.map_singleton, List.map_singleton, decode_wordsUnder r hfunction,
      decode_wordsUnder id hfunction, hrename]
  case injective => exact hr.injOn

theorem stage_referenced :
    Referenced .named (stage id stageDeclarations) [wordsUnder id stageFunction] := by
  have hheader : Instruction.decode (stage id stageDeclarations).header = [stageEntry] :=
    decode_wordsUnder id (by unfold Instruction.Fits; decide)
  have hannotations : Instruction.decode (stage id stageDeclarations).annotations = [stageLocation] :=
    decode_wordsUnder id (by unfold Instruction.Fits; decide)
  have hdeclarations : Instruction.decode (stage id stageDeclarations).declarations =
      stageDeclarations := decode_wordsUnder id (by unfold Instruction.Fits; decide)
  have hfunctions : functionsOf [wordsUnder id stageFunction] = stageFunction := by
    rw [functionsOf, List.flatMap_singleton]
    exact decode_wordsUnder id (by unfold Instruction.Fits; decide)
  constructor <;> rw [hdeclarations]
  case declares => unfold Declares; decide
  case distinct => decide
  case annotated =>
    rw [hheader, hannotations, hfunctions]
    intro w hw
    rw [show idsOf [stageLocation] = [31] from rfl, List.mem_singleton] at hw
    subst hw
    decide +kernel
  case reached =>
    rw [hheader, hfunctions]
    set used := idsOf ([stageEntry] ++ stageFunction) with hused
    -- The entry point and the function use the variable and the two types outright.
    have hused : ∀ w ∈ [31, 10, 11], Reached .named stageDeclarations used w := by
      simp only [List.forall_mem_cons, List.not_mem_nil, false_implies, implies_true, and_true]
      exact ⟨.used (by decide +kernel), .used (by decide +kernel), .used (by decide +kernel)⟩
    -- The others come by way of the variable.
    have hpointer : Reached .named stageDeclarations used 30 :=
      .refers (d := ⟨Op.variable.code, [30, 31, 3]⟩) (by decide) rfl (hused 31 (by decide)) (by decide)
    have hfloat : Reached .named stageDeclarations used 12 :=
      .refers (d := ⟨Op.typePointer.code, [30, 3, 12]⟩) (by decide) rfl hpointer (by decide)
    intro d hd
    simp only [stageDeclarations, List.mem_cons, List.not_mem_nil, or_false] at hd
    rcases hd with rfl | rfl | rfl | rfl | rfl
    · exact ⟨12, rfl, hfloat⟩
    · exact ⟨10, rfl, hused 10 (by decide)⟩
    · exact ⟨30, rfl, hpointer⟩
    · exact ⟨31, rfl, hused 31 (by decide)⟩
    · exact ⟨11, rfl, hused 11 (by decide)⟩

/-- The layout of a stage does not show that its ids were a hundred higher and its declarations made in
the opposite order. -/
theorem stage_forgotten : Alike (· + 100) (stage id stageDeclarations) [wordsUnder id stageFunction]
      (stage (· + 100) stageDeclarations.reverse) [wordsUnder (· + 100) stageFunction] ∧
    Referenced .named (stage id stageDeclarations) [wordsUnder id stageFunction] ∧
    canonicalize .named (stage (· + 100) stageDeclarations.reverse) [wordsUnder (· + 100) stageFunction] =
      canonicalize .named (stage id stageDeclarations) [wordsUnder id stageFunction] :=
  have halike := stage_alike (fun _ _ => (UInt32.add_left_inj 100).mp) (List.reverse_perm _)
  ⟨halike, stage_referenced, canonicalize_forgets halike stage_referenced⟩

end ShaderLowering.Layout
