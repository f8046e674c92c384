import Mathlib.Data.List.Basic
import ShaderLowering.Layout.IdPositions

/-!
# Instruction streams read back

`Instruction.Fits` is the format's limit on one instruction: its length, first word included, is
told by 16 bits.  Everything that `decode` returns fits (`fits_of_mem_decode`), and a stream of
instructions that fit reads back as it was written (`decode_flatMap_encode`).

Renaming ids keeps opcodes, lengths and id positions.  The one opcode for which the last of these
is not immediate is the entry point, whose positions depend on where its name ends: the words up to
that end are never ids (`interfaceStart_mapIds`).  Hence renamings compose (`mapIds_mapIds`).
-/

namespace ShaderLowering.Spirv.Instruction

/-- Whether the length of an instruction can be told by the 16 bits that the format has for it. -/
def Fits (i : Instruction) : Prop :=
  i.operands.length + 1 < UInt16.size

/-! ## Streams -/

theorem fits_of_mem_decode {words : List Word} {i : Instruction} (hi : i ∈ decode words) :
    i.Fits := by
  fun_induction decode words with
  | case1 => simp at hi
  | case2 first rest count h => simp at hi
  | case3 first rest count h ih =>
    have hcount : count < UInt16.size := Nat.div_lt_of_lt_mul first.toNat_lt
    rcases List.mem_cons.mp hi with rfl | hi
    · have hpos : count ≠ 0 := fun hzero => h (.inl hzero)
      have htake : min (count - 1) rest.length ≤ count - 1 := Nat.min_le_left _ _
      rw [Fits, List.length_take]
      clear_value count
      omega
    · exact ih hi

/-- Instructions that fit are split off the stream that they begin. -/
theorem decode_flatMap_encode_append {is : List Instruction} (h : ∀ i ∈ is, i.Fits) (rest : List Word) :
    decode (is.flatMap encode ++ rest) = is ++ decode rest := by
  induction is with
  | nil => rfl
  | cons i is ih =>
    rw [List.flatMap_cons, List.append_assoc, decode_encode_append (h i List.mem_cons_self),
      ih fun j hj => h j (List.mem_cons_of_mem i hj), List.cons_append]

/-- A stream of instructions that fit reads back as it was written. -/
theorem decode_flatMap_encode {is : List Instruction} (h : ∀ i ∈ is, i.Fits) :
    decode (is.flatMap encode) = is := by
  have hread := decode_flatMap_encode_append h []
  rwa [List.append_nil, decode, List.append_nil] at hread

/-! ## Renaming ids -/

@[simp] theorem opcode_mapIds (f : Word → Word) (i : Instruction) :
    (i.mapIds f).opcode = i.opcode := rfl

@[simp] theorem length_operands_mapIds (f : Word → Word) (i : Instruction) :
    (i.mapIds f).operands.length = i.operands.length := by
  simp [mapIds]

theorem fits_mapIds {f : Word → Word} {i : Instruction} : (i.mapIds f).Fits ↔ i.Fits := by
  simp [Fits]

@[simp] theorem op?_mapIds (f : Word → Word) (i : Instruction) : (i.mapIds f).op? = i.op? := rfl

/-- What renaming does to the operand at a position. -/
theorem getElem?_operands_mapIds (f : Word → Word) (i : Instruction) (p : Nat) :
    (i.mapIds f).operands[p]? =
      i.operands[p]?.map fun w => if p ∈ i.idPositions then f w else w := by
  simp [mapIds]

/-- The name of an entry point ends where it did: no word up to its end is an id. -/
theorem interfaceStart_mapIds (f : Word → Word) {i : Instruction} (h : i.op? = some .entryPoint) :
    interfaceStart (i.mapIds f).operands = interfaceStart i.operands := by
  -- Words of the name are not at positions of ids, so they are left as they are.
  have hsame : ∀ j, j + 2 < interfaceStart i.operands →
      ((i.mapIds f).operands.drop 2)[j]? = (i.operands.drop 2)[j]? := by
    intro j hj
    have hname : 2 + j ∉ i.idPositions := by
      intro hmem
      have hnominal := (List.mem_filter.mp hmem).1
      simp only [nominalIdPositions, h, List.mem_cons, List.mem_range'_1] at hnominal
      omega
    rw [List.getElem?_drop, List.getElem?_drop, getElem?_operands_mapIds]
    simp [hname]
  unfold interfaceStart at hsame ⊢
  cases hfound : (i.operands.drop 2).findIdx? hasZeroByte with
  | none =>
    rw [hfound] at hsame
    -- Without an end the whole of the operands is the name.
    have hwhole : (i.mapIds f).operands.drop 2 = i.operands.drop 2 := by
      apply List.ext_getElem?
      intro j
      by_cases hj : j + 2 < i.operands.length
      · exact hsame j hj
      · rw [List.getElem?_eq_none (by simp; omega), List.getElem?_eq_none (by simp; omega)]
    rw [hwhole, hfound, length_operands_mapIds]
  | some last =>
    rw [hfound] at hsame
    rw [List.findIdx?_eq_some_iff_getElem] at hfound
    obtain ⟨hlast, hzero, hbefore⟩ := hfound
    have hkept : ∀ j (hj : j ≤ last), ∃ hj' : j < ((i.mapIds f).operands.drop 2).length,
        ((i.mapIds f).operands.drop 2)[j] = (i.operands.drop 2)[j] := by
      intro j hj
      have hin : j < (i.operands.drop 2).length := Nat.lt_of_le_of_lt hj hlast
      have hget := hsame j (by simp only; omega)
      rw [List.getElem?_eq_getElem hin] at hget
      exact List.getElem?_eq_some_iff.mp hget
    -- The same word is the first with a zero byte.
    have hagain : ((i.mapIds f).operands.drop 2).findIdx? hasZeroByte = some last := by
      rw [List.findIdx?_eq_some_iff_getElem]
      obtain ⟨hin, heq⟩ := hkept last (Nat.le_refl _)
      refine ⟨hin, by rw [heq]; exact hzero, fun j hj => ?_⟩
      obtain ⟨_, heq⟩ := hkept j (Nat.le_of_lt hj)
      rw [heq]
      exact hbefore j hj
    rw [hagain]

@[simp] theorem idPositions_mapIds (f : Word → Word) (i : Instruction) :
    (i.mapIds f).idPositions = i.idPositions := by
  have hnominal : (i.mapIds f).nominalIdPositions = i.nominalIdPositions := by
    by_cases h : i.op? = some .entryPoint
    · simp only [nominalIdPositions, op?_mapIds, h, interfaceStart_mapIds f h,
        length_operands_mapIds]
    · simp only [nominalIdPositions, op?_mapIds, length_operands_mapIds]
      split <;> simp_all
  simp only [idPositions, hnominal, length_operands_mapIds]

/-- The ids after a renaming are the renamed ids. -/
theorem ids_mapIds (f : Word → Word) (i : Instruction) : (i.mapIds f).ids = i.ids.map f := by
  rw [ids, ids, idPositions_mapIds, List.map_filterMap]
  apply List.filterMap_congr
  intro p hp
  rw [getElem?_operands_mapIds]
  simp [hp]

/-- Renaming twice is renaming once. -/
theorem mapIds_mapIds (f g : Word → Word) (i : Instruction) :
    (i.mapIds f).mapIds g = i.mapIds (g ∘ f) := by
  have hoperands : ((i.mapIds f).mapIds g).operands = (i.mapIds (g ∘ f)).operands := by
    apply List.ext_getElem?
    intro p
    rw [getElem?_operands_mapIds, getElem?_operands_mapIds, getElem?_operands_mapIds,
      idPositions_mapIds, Option.map_map]
    congr 1
    funext w
    by_cases hp : p ∈ i.idPositions <;> simp [hp]
  simp only [mapIds] at hoperands ⊢
  rw [hoperands]

/-- Renamings that agree on the ids of an instruction have the same effect on it. -/
theorem mapIds_congr {f g : Word → Word} {i : Instruction} (h : ∀ w ∈ i.ids, f w = g w) :
    i.mapIds f = i.mapIds g := by
  have hoperands : (i.mapIds f).operands = (i.mapIds g).operands := by
    apply List.ext_getElem?
    intro p
    rw [getElem?_operands_mapIds, getElem?_operands_mapIds]
    cases hw : i.operands[p]? with
    | none => rfl
    | some w =>
      by_cases hp : p ∈ i.idPositions
      · have hmem : w ∈ i.ids := List.mem_filterMap.mpr ⟨p, hp, hw⟩
        simp [hp, h w hmem]
      · simp [hp]
  simp only [mapIds] at hoperands ⊢
  rw [hoperands]

end ShaderLowering.Spirv.Instruction
