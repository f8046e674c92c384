import Mathlib.Data.Finset.Card
import Mathlib.Data.Set.Function
import Mathlib.Order.Interval.Set.Basic
import ShaderLowering.Layout.Canonical

/-!
# Renumbering by first appearance

`newId distinct` numbers the members of a list of distinct words from 1 in the order of the list.
It is injective on them, for as many as there can be (`newId_injOn`), because there are no more
words than numbers; and its values are exactly the numbers from 1 to the length of the list, as
words (`image_newId`).  Only if there are so many ids that the next number no longer has a word of
its own do these numbers differ from the words below the bound (`image_ofNat_Icc`).
-/

namespace ShaderLowering.Layout

open Spirv

/-- The ids of a list of instructions, in order. -/
def idsOf (is : List Instruction) : List Word :=
  is.flatMap Instruction.ids

@[simp] theorem idsOf_append (is js : List Instruction) : idsOf (is ++ js) = idsOf is ++ idsOf js :=
  List.flatMap_append

theorem mem_idsOf_of_perm {is js : List Instruction} (h : is.Perm js) {w : Word} :
    w ∈ idsOf is ↔ w ∈ idsOf js :=
  (h.flatMap_right _).mem_iff

/-- There are at most as many first appearances as there are distinct members. -/
theorem length_firstAppearances {α : Type} [DecidableEq α] (as : List α) :
    (firstAppearances as).length = as.toFinset.card := by
  rw [← List.toFinset_card_of_nodup (nodup_firstAppearances as)]
  congr 1
  ext a
  simp [mem_firstAppearances]

theorem length_le_size_of_nodup {ws : List Word} (h : ws.Nodup) : ws.length ≤ UInt32.size := by
  have hnodup : (ws.map UInt32.toNat).Nodup := h.map fun _ _ heq => UInt32.toNat_inj.mp heq
  have hsub : ws.map UInt32.toNat ⊆ List.range UInt32.size := by
    intro n hn
    obtain ⟨w, -, rfl⟩ := List.mem_map.mp hn
    exact List.mem_range.mpr w.toNat_lt
  simpa using (List.subperm_of_subset hnodup hsub).length_le

/-- Numbers from 1 on have words of their own as long as there are enough words. -/
theorem ofNat_inj_of_le {m n : Nat} (hm : 1 ≤ m) (hn : 1 ≤ n) (hm' : m ≤ UInt32.size)
    (hn' : n ≤ UInt32.size) (h : UInt32.ofNat m = UInt32.ofNat n) : m = n := by
  have hmod := congrArg UInt32.toNat h
  rw [UInt32.toNat_ofNat', UInt32.toNat_ofNat'] at hmod
  change m ≤ 4294967296 at hm'
  change n ≤ 4294967296 at hn'
  omega

theorem newId_injOn {distinct : List Word} (h : distinct.Nodup) :
    Set.InjOn (newId distinct) {w | w ∈ distinct} := by
  intro v hv w hw heq
  have hlen := length_le_size_of_nodup h
  have hv' := List.idxOf_lt_length_of_mem hv
  have hw' := List.idxOf_lt_length_of_mem hw
  have hidx : distinct.idxOf v + 1 = distinct.idxOf w + 1 :=
    ofNat_inj_of_le (by omega) (by omega) (by omega) (by omega) heq
  exact (List.idxOf_inj hv).mp (Nat.succ.inj hidx)

theorem image_newId {distinct : List Word} (h : distinct.Nodup) :
    newId distinct '' {w | w ∈ distinct} = UInt32.ofNat '' Set.Icc 1 distinct.length := by
  ext v
  constructor
  · rintro ⟨w, hw, rfl⟩
    have hidx := List.idxOf_lt_length_of_mem (show w ∈ distinct from hw)
    exact ⟨distinct.idxOf w + 1, ⟨by omega, by omega⟩, rfl⟩
  · rintro ⟨n, ⟨hpos, hle⟩, rfl⟩
    have hin : n - 1 < distinct.length := by omega
    refine ⟨distinct[n - 1], List.getElem_mem hin, ?_⟩
    rw [newId, h.idxOf_getElem, Nat.sub_add_cancel hpos]

/-- The words of the numbers from 1 to `k` are those below the word of `k + 1`, if that number has
a word of its own. -/
theorem image_ofNat_Icc {k : Nat} (h : k + 1 < UInt32.size) :
    UInt32.ofNat '' Set.Icc 1 k = {v | 1 ≤ v ∧ v < UInt32.ofNat (k + 1)} := by
  ext v
  simp only [Set.mem_image, Set.mem_Icc, Set.mem_ofPred_eq, UInt32.le_iff_toNat_le,
    UInt32.lt_iff_toNat_lt, UInt32.toNat_ofNat_of_lt' h]
  constructor
  · rintro ⟨n, ⟨hpos, hle⟩, rfl⟩
    rw [UInt32.toNat_ofNat_of_lt' (by omega)]
    exact ⟨hpos, by omega⟩
  · rintro ⟨hpos, hlt⟩
    exact ⟨v.toNat, ⟨hpos, by omega⟩, UInt32.ofNat_toNat⟩

end ShaderLowering.Layout
