import ShaderLowering.Proofs.Layout.CanonicalForm

/-!
# The layout does not depend on what ids are called

If no two words get the same new name, renaming the ids of all streams leaves the layout as it is
(`canonicalize_of_injective`).  Nothing is asked of the streams but that what stands in the types section
declares something: results may be repeated, references may dangle or run in circles.  Each id refers
under its new name to the declaration that it referred to before (`lookup_declarationIndex_map`), so
declarations are placed as they were, and ids appear in the same order.
-/

namespace ShaderLowering.Layout

open Spirv

variable {table : OpTable} {r : Word → Word} {declarations : List Instruction} {used : List Word}

theorem injOn_of_injective (hr : Function.Injective r) (s : Set Word) : Set.InjOn r s :=
  fun _ _ _ _ heq => hr heq

/-! ## Placement -/

theorem lookup_map_fst (hr : Function.Injective r) (entries : List (Word × Nat)) (w : Word) :
    (entries.map fun e => (r e.1, e.2)).lookup (r w) = entries.lookup w := by
  induction entries with
  | nil => rfl
  | cons e entries ih =>
    have hkey : (r w == r e.1) = (w == e.1) := by
      rw [Bool.eq_iff_iff, beq_iff_eq, beq_iff_eq, hr.eq_iff]
    rw [List.map_cons, List.lookup_cons, List.lookup_cons, hkey, ih]

/-- Ids refer to declarations at the same positions. -/
theorem declarationIndex_map (hdeclares : ∀ d ∈ declarations, Declares d) :
    declarationIndex table (declarations.map (Instruction.mapIds r)) =
      (declarationIndex table declarations).map fun e => (r e.1, e.2) := by
  rw [declarationIndex, declarationIndex, List.map_reverse, List.zipIdx_map, List.filterMap_map,
    List.map_filterMap]
  refine congrArg List.reverse (List.filterMap_congr fun e he => ?_)
  obtain ⟨d, position⟩ := e
  have hresult := (hdeclares d (List.fst_mem_of_mem_zipIdx he)).resultId?_mapIds table r
  simp [hresult, Function.comp_def]

variable (hr : Function.Injective r) (hdeclares : ∀ d ∈ declarations, Declares d)

include hr hdeclares

theorem lookup_declarationIndex_map (w : Word) :
    (declarationIndex table (declarations.map (Instruction.mapIds r))).lookup (r w) =
      (declarationIndex table declarations).lookup w := by
  rw [declarationIndex_map hdeclares, lookup_map_fst hr]

theorem declarationsOf_map_ids (ws : List Word) :
    declarationsOf (declarationIndex table (declarations.map (Instruction.mapIds r))) (ws.map r) =
      declarationsOf (declarationIndex table declarations) ws := by
  rw [declarationsOf, List.filterMap_map]
  exact List.filterMap_congr fun w _ => lookup_declarationIndex_map hr hdeclares w

theorem references_map (position : Nat) :
    references (declarationIndex table (declarations.map (Instruction.mapIds r)))
        (declarations.map (Instruction.mapIds r)) position =
      references (declarationIndex table declarations) declarations position := by
  rw [references, references, List.getElem?_map]
  cases declarations[position]? with
  | none => rfl
  | some d =>
    simp only [Option.map_some, Instruction.ids_mapIds]
    exact declarationsOf_map_ids hr hdeclares d.ids

/-- Declarations are placed as they were, under their new names. -/
theorem placed_map_ids : placed table (declarations.map (Instruction.mapIds r)) (used.map r) =
    (placed table declarations used).map (Instruction.mapIds r) := by
  have hplacement : placement table (declarations.map (Instruction.mapIds r)) (used.map r) =
      placement table declarations used := by
    rw [placement, placement, funext (references_map hr hdeclares),
      declarationsOf_map_ids hr hdeclares, List.length_map]
  rw [placed, placed, hplacement, List.map_filterMap]
  exact List.filterMap_congr fun n _ => List.getElem?_map

omit hdeclares

/-! ## The layout -/

theorem numbered_map_ids (header annotations declarations functions : List Instruction) :
    numbered (header.map (Instruction.mapIds r)) (annotations.map (Instruction.mapIds r))
        (declarations.map (Instruction.mapIds r)) (functions.map (Instruction.mapIds r)) =
      numbered header annotations declarations functions := by
  set ids := idsOf (header ++ declarations ++ functions ++ annotations) with hids
  have hinjective : Set.InjOn r {w | w ∈ ids} := injOn_of_injective hr _
  have hall : idsOf (header.map (Instruction.mapIds r) ++ declarations.map (Instruction.mapIds r) ++
      functions.map (Instruction.mapIds r) ++ annotations.map (Instruction.mapIds r)) = ids.map r := by
    rw [← List.map_append, ← List.map_append, ← List.map_append, idsOf_map]
  have hrenumber : ∀ is : List Instruction, (∀ w ∈ idsOf is, w ∈ ids) →
      (is.map (Instruction.mapIds r)).map
          (Instruction.mapIds (newId (firstAppearances (ids.map r)))) =
        is.map (Instruction.mapIds (newId (firstAppearances ids))) := fun _ his =>
    -- New numbers go by place, and a renaming without confusion keeps places.
    renumber_map hinjective his
  have hlength : (firstAppearances (ids.map r)).length = (firstAppearances ids).length := by
    rw [firstAppearances_map hinjective, List.length_map]
  unfold numbered
  simp only [hall, ← hids, hlength, hrenumber header fun w hw => by simp [hids, hw],
    hrenumber declarations fun w hw => by simp [hids, hw],
    hrenumber functions fun w hw => by simp [hids, hw],
    hrenumber annotations fun w hw => by simp [hids, hw]]

/-- Streams that differ in the names of their ids only have the same layout. -/
theorem canonicalize_of_injective {sections sections' : Sections} {bodies bodies' : List (List Word)}
    (hheader : Instruction.decode sections'.header =
      (Instruction.decode sections.header).map (Instruction.mapIds r))
    (hannotations : Instruction.decode sections'.annotations =
      (Instruction.decode sections.annotations).map (Instruction.mapIds r))
    (hdeclarations : Instruction.decode sections'.declarations =
      (Instruction.decode sections.declarations).map (Instruction.mapIds r))
    (hfunctions : functionsOf bodies' = (functionsOf bodies).map (Instruction.mapIds r))
    (hdeclares : ∀ d ∈ Instruction.decode sections.declarations, Declares d) :
    canonicalize table sections' bodies' = canonicalize table sections bodies := by
  rw [canonicalize_eq_laidOut, canonicalize_eq_laidOut, hheader, hannotations, hdeclarations,
    hfunctions, laidOut, laidOut, ← List.map_append, idsOf_map, placed_map_ids hr hdeclares,
    numbered_map_ids hr]

end ShaderLowering.Layout
