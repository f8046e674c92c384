import ShaderLowering.Proofs.Layout.Postorder
import ShaderLowering.Proofs.Layout.Renumbering
import ShaderLowering.Proofs.Layout.Streams

/-!
# The canonical layout rearranges and renames

`canonicalize` is decoding, three rearrangements and one renaming.  Whatever the streams are (opcodes
known or not, by whatever table, references that dangle or run in circles, repeated result ids, tails
that do not decode), every decoded instruction comes out once: the header and the bodies in their order,
the declarations and the annotations permuted, all under one injective renaming of the ids
(`canonicalize_rearranges`).

The order of the annotations is `Instruction.Precedes`, by opcode and then by operands; that the
layout's test `instructionLe` decides it is `instructionLe_iff`.
-/

namespace ShaderLowering.Layout

open Spirv

/-! ## The order of annotations -/

/-- The order of instructions by opcode, then by operands in lexicographic order. -/
def Precedes (i j : Instruction) : Prop :=
  i.opcode < j.opcode ∨ (i.opcode = j.opcode ∧ i.operands ≤ j.operands)

theorem operandsLe_iff {ws vs : List Word} : operandsLe ws vs = true ↔ ws ≤ vs := by
  induction ws generalizing vs with
  | nil => simp [operandsLe]
  | cons w ws ih =>
    cases vs with
    | nil => simp [operandsLe]
    | cons v vs => simp [operandsLe, List.cons_le_cons_iff, ih]

theorem instructionLe_iff {i j : Instruction} : instructionLe i j = true ↔ Precedes i j := by
  simp [instructionLe, Precedes, operandsLe_iff]

theorem instructionLe_trans (i j k : Instruction) (hij : instructionLe i j = true)
    (hjk : instructionLe j k = true) : instructionLe i k = true := by
  rw [instructionLe_iff] at hij hjk ⊢
  unfold Precedes at hij hjk ⊢
  rcases hij with hij | ⟨heq, hij⟩
  · rcases hjk with hjk | ⟨heq, -⟩
    · exact .inl (UInt16.lt_trans hij hjk)
    · exact .inl (heq ▸ hij)
  · rcases hjk with hjk | ⟨heq', hjk⟩
    · exact .inl (heq ▸ hjk)
    · exact .inr ⟨heq.trans heq', List.le_trans hij hjk⟩

theorem instructionLe_total (i j : Instruction) :
    (instructionLe i j || instructionLe j i) = true := by
  rw [Bool.or_eq_true, instructionLe_iff, instructionLe_iff]
  unfold Precedes
  by_cases heq : i.opcode = j.opcode
  · rcases List.le_total i.operands j.operands with hle | hle
    · exact .inl (.inr ⟨heq, hle⟩)
    · exact .inr (.inr ⟨heq.symm, hle⟩)
  · rcases UInt16.lt_or_lt_of_ne heq with hlt | hlt
    · exact .inl (.inl hlt)
    · exact .inr (.inl hlt)

theorem instructionLe_antisymm (i j : Instruction) (hij : instructionLe i j = true)
    (hji : instructionLe j i = true) : i = j := by
  rw [instructionLe_iff] at hij hji
  rcases hij with hij | ⟨heq, hij⟩
  · rcases hji with hji | ⟨heq, -⟩
    · exact absurd hji (UInt16.lt_asymm hij)
    · exact absurd (heq ▸ hij) (UInt16.lt_irrefl _)
  · rcases hji with hji | ⟨-, hji⟩
    · exact absurd (heq ▸ hji) (UInt16.lt_irrefl _)
    · obtain ⟨opcode, operands⟩ := i
      obtain ⟨opcode', operands'⟩ := j
      have hoperands : operands = operands' := List.le_antisymm hij hji
      rw [hoperands, show opcode = opcode' from heq]

/-! ## What comes out -/

/-- The layout of any streams is their decoded instructions, declarations and annotations permuted,
under one renaming of the ids that occur.  The renaming is injective, and its values are the
numbers from 1 to the number `k` of distinct ids, taken as words; the bound is the word of `k + 1`.
As long as that number has a word of its own, the values are the words from 1 on below the bound. -/
theorem canonicalize_rearranges (table : OpTable) (sections : Sections) (bodies : List (List Word)) :
    let header := Instruction.decode sections.header
    let annotations := Instruction.decode sections.annotations
    let declarations := Instruction.decode sections.declarations
    let functions := bodies.flatMap Instruction.decode
    let ids := idsOf (header ++ annotations ++ declarations ++ functions)
    let k := ids.toFinset.card
    ∃ (r : Word → Word) (placed sorted : List Instruction),
      placed.Perm declarations ∧ sorted.Perm annotations ∧
      (sorted.map (Instruction.mapIds r)).Pairwise Precedes ∧
      Set.BijOn r {w | w ∈ ids} (UInt32.ofNat '' Set.Icc 1 k) ∧
      (canonicalize table sections bodies).2 = UInt32.ofNat (k + 1) ∧
      (k + 1 < UInt32.size →
        Set.BijOn r {w | w ∈ ids} {v | 1 ≤ v ∧ v < (canonicalize table sections bodies).2}) ∧
      (canonicalize table sections bodies).1 =
        ((header ++ sorted ++ placed ++ functions).map (Instruction.mapIds r)).flatMap
          Instruction.encode ∧
      Instruction.decode (canonicalize table sections bodies).1 =
        (header ++ sorted ++ placed ++ functions).map (Instruction.mapIds r) := by
  intro header annotations declarations functions ids k
  set placed' := placed table declarations (idsOf (header ++ functions)) with hplaced'
  set distinct := firstAppearances (idsOf (header ++ placed' ++ functions ++ annotations))
    with hdistinct
  set r := newId distinct with hr
  have hperm : placed'.Perm declarations := placed_perm _ _ _
  have hmem : ∀ w, w ∈ distinct ↔ w ∈ ids := by
    intro w
    rw [hdistinct, mem_firstAppearances]
    simp only [ids, idsOf_append, List.mem_append, mem_idsOf_of_perm hperm]
    tauto
  have hnodup : distinct.Nodup := nodup_firstAppearances _
  have hset : {w | w ∈ distinct} = {w | w ∈ ids} := Set.ext hmem
  have hcount : distinct.length = k := by
    rw [hdistinct, length_firstAppearances]
    congr 1
    ext w
    rw [List.mem_toFinset, List.mem_toFinset, ← hmem, hdistinct, mem_firstAppearances]
  have hbij : Set.BijOn r {w | w ∈ ids} (UInt32.ofNat '' Set.Icc 1 k) := by
    rw [← hcount, ← image_newId hnodup, ← hset]
    exact (newId_injOn hnodup).bijOn_image
  have hbound : (canonicalize table sections bodies).2 = UInt32.ofNat (k + 1) := by
    rw [← hcount]
    rfl
  -- Sorting the renamed annotations is sorting the annotations by how they are renamed.
  set sorted := annotations.mergeSort fun i j => instructionLe (i.mapIds r) (j.mapIds r)
    with hsorted
  have hrenamed : sorted.map (Instruction.mapIds r) =
      (annotations.map (Instruction.mapIds r)).mergeSort instructionLe :=
    List.map_mergeSort fun _ _ _ _ => rfl
  have hinstructions : (canonicalize table sections bodies).1 =
      ((header ++ sorted ++ placed' ++ functions).map (Instruction.mapIds r)).flatMap
        Instruction.encode := by
    simp only [List.map_append, hrenamed]
    rfl
  have hfits : ∀ i ∈ (header ++ sorted ++ placed' ++ functions).map (Instruction.mapIds r),
      i.Fits := by
    intro i hi
    obtain ⟨j, hj, rfl⟩ := List.mem_map.mp hi
    rw [Instruction.fits_mapIds]
    simp only [List.mem_append, hsorted, List.mem_mergeSort, hperm.mem_iff] at hj
    rcases hj with ((hj | hj) | hj) | hj
    · exact Instruction.fits_of_mem_decode hj
    · exact Instruction.fits_of_mem_decode hj
    · exact Instruction.fits_of_mem_decode hj
    · obtain ⟨body, -, hj⟩ := List.mem_flatMap.mp hj
      exact Instruction.fits_of_mem_decode hj
  refine ⟨r, placed', sorted, hperm, List.mergeSort_perm _ _, ?_, hbij, hbound, ?_,
    hinstructions, ?_⟩
  · rw [hrenamed]
    refine (List.pairwise_mergeSort instructionLe_trans instructionLe_total _).imp ?_
    exact fun {i j} h => instructionLe_iff.mp h
  · intro hsmall
    rw [hbound, ← image_ofNat_Icc hsmall]
    exact hbij
  · rw [hinstructions, Instruction.decode_flatMap_encode hfits]

end ShaderLowering.Layout
