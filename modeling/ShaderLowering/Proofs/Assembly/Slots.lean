import Mathlib.Data.List.Nodup
import ShaderLowering.Proofs.Assembly.ReadBack

/-!
# The numbers of slots

Whoever declares a local is told the number of its slot at once, when neither the locals that follow nor the
code are known, and methods are edited in turns.  The types of slots are looked up in the assembly that comes
of it all.

What has been declared of a method and the numbers that have been told are the locals of the method, numbered
on from its parameters (`Assembly.numberedLocals_editAll`).  As long as the slots can be counted in a word,
every number stands for one slot then, and the look-up finds the type that was declared
(`laidOut_editAll`).
-/

namespace ShaderLowering

namespace MethodDef

/-- The locals of a method with the numbers of their slots. -/
def numberedLocals (m : MethodDef) : List (Il.Slot × TypeId) :=
  m.locals.mapIdx fun i type => (UInt32.ofNat (m.effectiveParameterCount + i), type)

/-- The slots of a method are its parameters, a receiver first, and what has been declared after them.  No
two have the same number, each has its type, and there are no others. -/
structure LaidOut (m : MethodDef) (declared : List (Il.Slot × TypeId)) : Prop where
  receiver : m.isStatic = false → m.slotType? 0 = some m.owner
  effective : m.effectiveParameters.length = m.effectiveParameterCount
  parameters : ∀ i type, m.effectiveParameters[i]? = some type → m.slotType? (.ofNat i) = some type
  fresh : ∀ l ∈ declared, m.effectiveParameterCount ≤ l.1.toNat
  distinct : (declared.map Prod.fst).Nodup
  locals : ∀ l ∈ declared, m.slotType? l.1 = some l.2
  count : m.slotCount = m.effectiveParameterCount + declared.length
  defined : ∀ number, (m.slotType? number).isSome ↔ number.toNat < m.slotCount

variable {m : MethodDef}

/-- A new local is told the number that it has among all locals. -/
theorem numberedLocals_addLocal (m : MethodDef) (type : TypeId) :
    (m.addLocal type).2.numberedLocals = m.numberedLocals ++ [((m.addLocal type).1, type)] := by
  have hnumber : (m.addLocal type).1 = .ofNat (m.effectiveParameterCount + m.locals.length) := by
    rw [effectiveParameterCount, Nat.add_comm m.parameters.length]
    rfl
  rw [hnumber]
  exact List.mapIdx_concat

theorem length_numberedLocals (m : MethodDef) : m.numberedLocals.length = m.locals.length :=
  List.length_mapIdx

/-- The numbers of locals follow one another. -/
theorem toNat_numberedLocals (hcount : m.slotCount < UInt32.size) :
    m.numberedLocals.map (fun l => l.1.toNat) =
      List.range' m.effectiveParameterCount m.locals.length := by
  refine List.ext_getElem (by simp [numberedLocals]) fun i hi _ => ?_
  rw [List.length_map, length_numberedLocals] at hi
  have hnumber : m.effectiveParameterCount + i < UInt32.size :=
    Nat.lt_trans (Nat.add_lt_add_left hi _) hcount
  simp only [numberedLocals, List.getElem_map, List.getElem_mapIdx, List.getElem_range', Nat.one_mul]
  exact UInt32.toNat_ofNat_of_lt' hnumber

theorem slotType?_ofNat {i : Nat} (hi : i < UInt32.size) :
    m.slotType? (.ofNat i) = m.slotTypes[i]? := by
  rw [slotType?, slotTypeAt?_eq, UInt32.toNat_ofNat_of_lt' hi]

/-- A local is looked up under its number. -/
theorem slotType?_of_mem_numberedLocals (hcount : m.slotCount < UInt32.size) {l : Il.Slot × TypeId}
    (hl : l ∈ m.numberedLocals) : m.slotType? l.1 = some l.2 := by
  obtain ⟨i, hi, rfl⟩ := List.mem_mapIdx.mp hl
  have hnumber : m.effectiveParameterCount + i < UInt32.size :=
    Nat.lt_trans (Nat.add_lt_add_left hi _) hcount
  rw [slotType?_ofNat hnumber, slotTypes, ← m.length_effectiveParameters,
    List.getElem?_append_right (Nat.le_add_right _ _), Nat.add_sub_cancel_left]
  exact List.getElem?_eq_getElem hi

/-- The slots of a method are laid out for its locals, if they can be counted in a word. -/
theorem laidOut_numberedLocals (hcount : m.slotCount < UInt32.size) : m.LaidOut m.numberedLocals where
  receiver hinstance := by
    rw [slotType?, slotTypeAt?_eq, slotTypes, effectiveParameters, hinstance]
    rfl
  effective := m.length_effectiveParameters
  parameters i type htype := by
    obtain ⟨hi, -⟩ := List.getElem?_eq_some_iff.mp htype
    -- The position of a parameter does not wrap, as there are more slots than parameters.
    have hslot : i < m.slotCount := by
      rw [← m.length_slotTypes, slotTypes, List.length_append]
      exact Nat.lt_add_right _ hi
    rw [slotType?_ofNat (Nat.lt_trans hslot hcount), slotTypes, List.getElem?_append_left hi, htype]
  fresh l hl := by
    have hnumber : l.1.toNat ∈ m.numberedLocals.map fun l => l.1.toNat := List.mem_map_of_mem hl
    rw [toNat_numberedLocals hcount] at hnumber
    exact (List.mem_range'_1.mp hnumber).1
  distinct := by
    -- Numbers that come one after another from a word on are distinct as long as none wraps.
    have hnumbers : ((m.numberedLocals.map Prod.fst).map UInt32.toNat).Nodup := by
      rw [List.map_map]
      exact toNat_numberedLocals hcount ▸ List.nodup_range'
    exact hnumbers.of_map
  locals _ hl := slotType?_of_mem_numberedLocals hcount hl
  count := by rw [slotCount, length_numberedLocals]
  defined number := by
    rw [slotType?, slotTypeAt?_eq, Option.isSome_iff_ne_none, ne_eq, List.getElem?_eq_none_iff, Nat.not_le,
      m.length_slotTypes]

end MethodDef

namespace Assembly

/-- The local of a method that an edit declares, under the number that is told for it. -/
def localOf (a : Assembly) (id : MethodId) : Edit → List (Il.Slot × TypeId)
  | .localSlot method type =>
    if method = id then
      ((a.editMethod? method fun m => m.addLocal type).map fun answer => (answer.1, type)).toList
    else []
  | _ => []

/-- The locals of a method that edits declare, in order. -/
def localsOf (id : MethodId) : Assembly → List Edit → List (Il.Slot × TypeId)
  | _, [] => []
  | a, e :: edits => a.localOf id e ++ localsOf id (a.edit e) edits

/-- An edit adds to the locals of a method what it declares, under the number that it tells. -/
theorem numberedLocals_edit (a : Assembly) (id : MethodId) (e : Edit) :
    (a.edit e).keptBy id MethodDef.numberedLocals =
      a.keptBy id MethodDef.numberedLocals ++ a.localOf id e := by
  refine keptBy_edit e (fun m hlocals _ => ?_) (fun hnone => ?_) fun m hm => ?_
  · rw [MethodDef.numberedLocals, hlocals]
    rfl
  · cases e with
    | localSlot method type =>
      rw [localOf]
      split
      · next hsame => rw [hsame, editMethod?, hnone]; rfl
      · rfl
    | _ => rfl
  · cases e with
    | localSlot method type =>
      rw [Edit.change, localOf]
      split
      · next hsame =>
        rw [hsame, editMethod?, hm]
        exact m.numberedLocals_addLocal type
      · exact (List.append_nil _).symm
    | write method line =>
      refine Eq.trans ?_ (List.append_nil _).symm
      rw [Edit.change]
      split <;> rfl
    | _ => exact (List.append_nil _).symm

/-- After any edits the locals of a method are followed by those that have been declared. -/
theorem numberedLocals_editAll (id : MethodId) (edits : List Edit) (a : Assembly) :
    (a.editAll edits).keptBy id MethodDef.numberedLocals =
      a.keptBy id MethodDef.numberedLocals ++ localsOf id a edits :=
  keptBy_editAll (localsOf id) (fun _ => rfl) (fun _ _ _ => rfl) (fun a e => a.numberedLocals_edit id e)
    edits a

end Assembly

/-- Whatever edits put an assembly together, the slots of a method are laid out for what they have declared
of it. -/
theorem laidOut_editAll (name : String) (edits : List Edit) {id : MethodId} {m : MethodDef}
    (hm : ((Assembly.empty name).editAll edits).method? id = some m)
    (hcount : m.slotCount < UInt32.size) :
    m.LaidOut (Assembly.localsOf id (.empty name) edits) := by
  have hlocals := Assembly.numberedLocals_editAll id edits (.empty name)
  have hempty : (Assembly.empty name).keptBy id MethodDef.numberedLocals = [] := rfl
  rw [Assembly.keptBy_of_some hm, hempty, List.nil_append] at hlocals
  exact hlocals ▸ MethodDef.laidOut_numberedLocals hcount

end ShaderLowering
