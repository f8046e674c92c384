import Mathlib.Logic.Relation
import Mathlib.Tactic.Tauto
import ShaderLowering.Layout.CallOrder

/-!
# The order of functions holds everything that is called

What the walk over calls writes down is `Below` one of the functions that it starts from, and no id
twice; no id of these functions or of what they call is left out (`exists_mem_callOrder`).  If functions
are told apart by their ids, it writes down all of these (`mem_callOrder_iff`).
-/

namespace ShaderLowering

open Relation (ReflTransGen)

/-- One function is another, or is called by it, directly or not. -/
def Function.Below : Function → Function → Prop :=
  ReflTransGen fun f g => g ∈ f.callees

namespace Layout

variable {f g : Function} {met : List Spirv.Id} {stack : List Function}

theorem below_of_mem_callOrderFrom (h : f ∈ callOrderFrom met stack) :
    ∃ s ∈ stack, s.Below f := by
  fun_induction callOrderFrom met stack with
  | case1 => cases h
  | case2 met g rest hmet ih =>
    obtain ⟨s, hs, hbelow⟩ := ih h
    exact ⟨s, List.mem_cons_of_mem g hs, hbelow⟩
  | case3 met g rest hmet ih =>
    rcases List.mem_cons.mp h with rfl | h
    · exact ⟨f, List.mem_cons_self, .refl⟩
    · obtain ⟨s, hs, hbelow⟩ := ih h
      rcases List.mem_append.mp hs with hs | hs
      · exact ⟨g, List.mem_cons_self, .head hs hbelow⟩
      · exact ⟨s, List.mem_cons_of_mem g hs, hbelow⟩

theorem not_met_of_mem_callOrderFrom (h : f ∈ callOrderFrom met stack) : f.id ∉ met := by
  fun_induction callOrderFrom met stack with
  | case1 => cases h
  | case2 met g rest hmet ih => exact ih h
  | case3 met g rest hmet ih =>
    rcases List.mem_cons.mp h with rfl | h
    · exact hmet
    · exact fun hmem => ih h (List.mem_cons_of_mem _ hmem)

/-- No id is written down twice. -/
theorem nodup_callOrder (entries : List Function) :
    ((callOrder entries).map Function.id).Nodup := by
  unfold callOrder
  generalize ([] : List Spirv.Id) = met
  fun_induction callOrderFrom met entries with
  | case1 => exact List.nodup_nil
  | case2 met g rest hmet ih => exact ih
  | case3 met g rest hmet ih =>
    rw [List.map_cons, List.nodup_cons]
    refine ⟨fun hmem => ?_, ih⟩
    obtain ⟨f, hf, hid⟩ := List.mem_map.mp hmem
    exact not_met_of_mem_callOrderFrom hf (hid ▸ List.mem_cons_self)

/-- A function is passed over for its id alone: the ids of what the walk starts from, and of what is called by
what it writes down, have been met or are written down. -/
theorem ids_callOrderFrom (met : List Spirv.Id) (stack : List Function) :
    (∀ f ∈ stack, f.id ∈ met ∨ ∃ g ∈ callOrderFrom met stack, g.id = f.id) ∧
      ∀ f ∈ callOrderFrom met stack, ∀ g ∈ f.callees,
        g.id ∈ met ∨ ∃ g' ∈ callOrderFrom met stack, g'.id = g.id := by
  fun_induction callOrderFrom met stack with
  | case1 => exact ⟨nofun, nofun⟩
  | case2 met f rest hmet ih =>
    exact ⟨List.forall_mem_cons.mpr ⟨.inl hmet, ih.1⟩, ih.2⟩
  | case3 met f rest hmet ih =>
    -- The id that is now met is that of the function at the front of the result.
    have hmoved : ∀ w, (w ∈ f.id :: met ∨
          ∃ g ∈ callOrderFrom (f.id :: met) (f.callees ++ rest), g.id = w) →
        w ∈ met ∨ ∃ g ∈ f :: callOrderFrom (f.id :: met) (f.callees ++ rest), g.id = w := by
      rintro w (hw | ⟨g, hg, rfl⟩)
      · rcases List.mem_cons.mp hw with rfl | hw
        · exact .inr ⟨f, List.mem_cons_self, rfl⟩
        · exact .inl hw
      · exact .inr ⟨g, List.mem_cons_of_mem f hg, rfl⟩
    obtain ⟨hcallees, hrest⟩ := List.forall_mem_append.mp ih.1
    constructor
    · exact List.forall_mem_cons.mpr ⟨.inr ⟨f, List.mem_cons_self, rfl⟩, fun g hg => hmoved _ (hrest g hg)⟩
    · exact List.forall_mem_cons.mpr ⟨fun g hg => hmoved _ (hcallees g hg),
        fun f' hf' g hg => hmoved _ (ih.2 f' hf' g hg)⟩

/-- The order of functions has the ids of the entries, and of all that is called. -/
theorem exists_mem_callOrder {entries : List Function}
    (hg : g ∈ entries ∨ ∃ f ∈ callOrder entries, g ∈ f.callees) :
    ∃ g' ∈ callOrder entries, g'.id = g.id := by
  obtain ⟨hentries, hcallees⟩ := ids_callOrderFrom [] entries
  rcases hg with hg | ⟨f, hf, hg⟩
  · exact (hentries g hg).resolve_left nofun
  · exact (hcallees f hf g hg).resolve_left nofun

/-- Functions of a family that holds what they call and tells them apart by their ids: the walk
leaves none of them out. -/
theorem callOrderFrom_closed {U : Function → Prop} (hcallees : ∀ f, U f → ∀ g ∈ f.callees, U g)
    (hids : ∀ f g, U f → U g → f.id = g.id → f = g) {done : List Function}
    (hdone : ∀ f ∈ done, U f) (hstack : ∀ f ∈ stack, U f)
    (hpending : ∀ f ∈ done, ∀ g ∈ f.callees, g ∈ done ∨ g ∈ stack) :
    (∀ f ∈ stack, f ∈ done ++ callOrderFrom (done.map Function.id) stack) ∧
      ∀ f ∈ done ++ callOrderFrom (done.map Function.id) stack, ∀ g ∈ f.callees,
        g ∈ done ++ callOrderFrom (done.map Function.id) stack := by
  generalize hmet : done.map Function.id = met
  fun_induction callOrderFrom met stack generalizing done with
  | case1 =>
    refine ⟨nofun, fun f hf g hg => ?_⟩
    rw [List.append_nil] at hf ⊢
    exact (hpending f hf g hg).resolve_right nofun
  | case2 met f rest hmem ih =>
    subst hmet
    -- The function has been met, so it is one of those that are done.
    have hf : f ∈ done := by
      obtain ⟨f', hf', hid⟩ := List.mem_map.mp hmem
      rwa [hids f f' (hstack f List.mem_cons_self) (hdone f' hf') hid.symm]
    obtain ⟨hall, hclosed⟩ := ih hdone (fun g hg => hstack g (List.mem_cons_of_mem f hg))
      (fun g hg g' hg' => (hpending g hg g' hg').elim .inl fun hmem => by
        rcases List.mem_cons.mp hmem with rfl | hmem
        · exact .inl hf
        · exact .inr hmem) rfl
    refine ⟨fun g hg => ?_, hclosed⟩
    rcases List.mem_cons.mp hg with rfl | hg
    · exact List.mem_append_left _ hf
    · exact hall g hg
  | case3 met f rest hmem ih =>
    subst hmet
    have hU := hstack f List.mem_cons_self
    obtain ⟨hall, hclosed⟩ := ih (List.forall_mem_cons.mpr ⟨hU, hdone⟩ : ∀ g ∈ f :: done, U g)
      (fun g hg => (List.mem_append.mp hg).elim (hcallees f hU g) fun hg =>
        hstack g (List.mem_cons_of_mem f hg))
      (fun g hg g' hg' => by
        rcases List.mem_cons.mp hg with rfl | hg
        · exact .inr (List.mem_append_left _ hg')
        · rcases hpending g hg g' hg' with hmem | hmem
          · exact .inl (List.mem_cons_of_mem f hmem)
          · rcases List.mem_cons.mp hmem with rfl | hmem
            · exact .inl List.mem_cons_self
            · exact .inr (List.mem_append_right _ hmem)) rfl
    -- The function moves from the front of the done ones to the front of the result.
    have hmoved : ∀ g, g ∈ (f :: done) ++ callOrderFrom (f.id :: done.map Function.id)
        (f.callees ++ rest) ↔ g ∈ done ++ f :: callOrderFrom (f.id :: done.map Function.id)
        (f.callees ++ rest) := fun g => by
      simp only [List.mem_append, List.mem_cons]
      tauto
    refine ⟨fun g hg => ?_, fun g hg g' hg' => ?_⟩
    · rcases List.mem_cons.mp hg with rfl | hg
      · simp
      · exact (hmoved g).mp (hall g (List.mem_append_right _ hg))
    · exact (hmoved g').mp (hclosed g ((hmoved g).mpr hg) g' hg')

/-- If functions are told apart by their ids, their order holds all that is below the entries. -/
theorem mem_callOrder_iff {U : Function → Prop} (hcallees : ∀ f, U f → ∀ g ∈ f.callees, U g)
    (hids : ∀ f g, U f → U g → f.id = g.id → f = g) {entries : List Function}
    (hentries : ∀ f ∈ entries, U f) :
    f ∈ callOrder entries ↔ ∃ s ∈ entries, s.Below f := by
  constructor
  · exact below_of_mem_callOrderFrom
  · rintro ⟨s, hs, hbelow⟩
    have hnone : ∀ g ∈ ([] : List Function), U g := nofun
    obtain ⟨hall, hclosed⟩ := callOrderFrom_closed hcallees hids hnone hentries nofun
    induction hbelow with
    | refl => exact hall s hs
    | tail _ hg ih => exact hclosed _ ih _ hg

end Layout

end ShaderLowering
