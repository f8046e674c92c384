import ShaderLowering.Proofs.Threads.Governed

/-!
# Machines that have come to their end

When every thread of a governed machine has ended, each has ended with a result, of which what was to
be shown of its task holds; and no slot is left under construction.
-/

namespace ShaderLowering.Construction

variable {I : Interface} {σ ν α : Type}

/-- A thread that has ended with a result or, where there is none, by a panic. -/
def Thread.ended : Option (Result I α) → Thread I α
  | some r => ⟨.top, .run (.done r), .base⟩
  | none => ⟨.top, .run .panic, .base⟩

theorem Thread.eq_ended {thread : Thread I α} {ending : Option (Result I α)}
    (hending : thread.ending? = some ending) : thread = ended ending := by
  obtain ⟨goal, control, frames⟩ := thread
  unfold ending? at hending
  split at hending
  · next result frames' heq =>
    obtain rfl := Option.some.inj hending
    obtain ⟨rfl, hrest⟩ := Thread.mk.inj heq
    obtain ⟨rfl, rfl⟩ := And.intro (eq_of_heq hrest.1) (eq_of_heq hrest.2)
    cases frames with
    | base => rfl
  · next frames' heq =>
    obtain rfl := Option.some.inj hending
    obtain ⟨rfl, hrest⟩ := Thread.mk.inj heq
    obtain ⟨rfl, rfl⟩ := And.intro (eq_of_heq hrest.1) (eq_of_heq hrest.2)
    cases frames with
    | base => rfl
  · cases hending

/-- When all threads have ended, no slot is left under construction. -/
theorem Machine.state?_ne_building_of_isOver {m : Machine I σ α} (hcoherent : m.board.Coherent)
    (hover : m.isOver = true) (k : I.Key) : m.world.state? k ≠ some .building := by
  intro hbuilding
  obtain ⟨cell, hcell, hstate⟩ := Option.map_eq_some_iff.mp hbuilding
  have hslot : m.board.slot k = some cell.standing := by
    change (m.world.cells.get? k).map Cell.standing = _
    rw [hcell]
    rfl
  have hopen : cell.standing.building = true := by simp [Cell.standing, hstate]
  rcases hcoherent.built k _ hslot with hkeys | ⟨hclosed, -⟩
  · -- The owner still has the key on its stack, so it has not ended.
    cases hthread : m.threads[cell.standing.owner]? with
    | none => simp [Machine.board, hthread] at hkeys
    | some thread =>
      rw [Machine.isOver, List.all_eq_true] at hover
      have hended := hover thread (List.mem_of_getElem? hthread)
      obtain ⟨ending, hending⟩ := Option.isSome_iff_exists.mp hended
      obtain rfl := Thread.eq_ended hending
      rw [Machine.board_keys hthread] at hkeys
      cases ending <;> cases hkeys
  · rw [hopen] at hclosed
    cases hclosed

namespace Discipline.Governed

variable {D : Discipline I σ ν} {P : ThreadId → List (I.Key × ν) → Result I α → Prop}
  {m : Machine I σ α} {h : List (I.Key × ν)}

/-- A thread that has ended has ended with what was to be shown of its task. -/
theorem ended (hm : D.Governed P m h) (hwithin : D.within m.world.shared) {t : ThreadId}
    {thread : Thread I α} (hthread : m.threads[t]? = some thread)
    {ending : Option (Result I α)} (hending : thread.ending? = some ending) :
    ∃ r, ending = some r ∧ P t h r := by
  have hsafe := (hm.threads t thread hthread).control
  obtain rfl := Thread.eq_ended hending
  have hnow : D.Later .top h h m.world.shared := ⟨.refl .top h, hm.inv, hwithin⟩
  cases ending with
  | some r => exact ⟨r, rfl, hsafe h _ hnow⟩
  | none => exact absurd hnow (hsafe h _)

/-- When all threads have ended, every slot is settled. -/
theorem settled (hm : D.Governed P m h) (hover : m.isOver = true) (k : I.Key) :
    m.world.state? k ≠ some .building :=
  Machine.state?_ne_building_of_isOver hm.coherent hover k

end Discipline.Governed

end ShaderLowering.Construction
