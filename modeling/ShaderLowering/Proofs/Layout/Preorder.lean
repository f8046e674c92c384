import ShaderLowering.Proofs.Layout.CallOrder

/-!
# The order of functions is a depth-first preorder

`Preorder next met roots order` is the walk as one would define it: what is met for the first time is
written down, then everything below it is walked, and only then the rest.  The walk of the layout keeps
what is below a function and the rest on one stack.  It is the same walk (`preorder_callOrderFrom`),
because the walk over one stack and then another is the walk over the first and then, with what that has
met, the walk over the second (`callOrderFrom_append`).

What a preorder writes down is what the roots lead to, without repetition (`Preorder.mem_iff`,
`Preorder.nodup`).
-/

namespace ShaderLowering

open Relation (ReflTransGen)

/-- Depth-first preorder of what roots lead to, without what has been met before. -/
inductive Preorder {κ : Type} (next : κ → List κ) : List κ → List κ → List κ → Prop
  | nil (met : List κ) : Preorder next met [] []
  | skip {met : List κ} {root : κ} {rest order : List κ} (hmet : root ∈ met)
      (hrest : Preorder next met rest order) : Preorder next met (root :: rest) order
  | visit {met : List κ} {root : κ} {rest below after : List κ} (hnew : root ∉ met)
      (hbelow : Preorder next (root :: met) (next root) below)
      (hrest : Preorder next (below ++ root :: met) rest after) :
      Preorder next met (root :: rest) (root :: below ++ after)

namespace Preorder

variable {κ : Type} {next : κ → List κ} {met met' roots order : List κ} {k k' : κ}

/-- It does not matter in what order what has been met has been met. -/
theorem congr (h : Preorder next met roots order) (hsame : ∀ k, k ∈ met ↔ k ∈ met') :
    Preorder next met' roots order := by
  induction h generalizing met' with
  | nil => exact .nil met'
  | skip hmet _ ih => exact .skip ((hsame _).mp hmet) (ih hsame)
  | visit hnew _ _ ihbelow ihrest =>
    refine .visit (fun hmem => hnew ((hsame _).mpr hmem)) (ihbelow fun k => ?_) (ihrest fun k => ?_)
    · simp [hsame]
    · simp [hsame]

/-- There is one preorder. -/
theorem unique {order' : List κ} (h : Preorder next met roots order)
    (h' : Preorder next met roots order') : order = order' := by
  induction h generalizing order' with
  | nil =>
    cases h'
    rfl
  | skip hmet _ ih =>
    cases h' with
    | skip _ hrest => exact ih hrest
    | visit hnew _ _ => exact absurd hmet hnew
  | visit hnew _ _ ihbelow ihrest =>
    cases h' with
    | skip hmet _ => exact absurd hmet hnew
    | visit _ hbelow hrest =>
      obtain rfl := ihbelow hbelow
      obtain rfl := ihrest hrest
      rfl

/-- What is written down is below a root. -/
theorem exists_of_mem (h : Preorder next met roots order) (hk : k ∈ order) :
    ∃ root ∈ roots, ReflTransGen (fun k k' => k' ∈ next k) root k := by
  induction h with
  | nil => cases hk
  | skip _ _ ih =>
    obtain ⟨root, hroot, hpath⟩ := ih hk
    exact ⟨root, List.mem_cons_of_mem _ hroot, hpath⟩
  | @visit met root rest below after _ _ _ ihbelow ihrest =>
    rcases List.mem_append.mp hk with hk | hk
    · rcases List.mem_cons.mp hk with rfl | hk
      · exact ⟨k, List.mem_cons_self, .refl⟩
      · obtain ⟨root', hroot', hpath⟩ := ihbelow hk
        exact ⟨root, List.mem_cons_self, .head hroot' hpath⟩
    · obtain ⟨root', hroot', hpath⟩ := ihrest hk
      exact ⟨root', List.mem_cons_of_mem _ hroot', hpath⟩

theorem not_met_of_mem (h : Preorder next met roots order) (hk : k ∈ order) : k ∉ met := by
  induction h with
  | nil => cases hk
  | skip _ _ ih => exact ih hk
  | visit hnew _ _ ihbelow ihrest =>
    rcases List.mem_append.mp hk with hk | hk
    · rcases List.mem_cons.mp hk with rfl | hk
      · exact hnew
      · exact fun hmem => ihbelow hk (List.mem_cons_of_mem _ hmem)
    · exact fun hmem => ihrest hk (List.mem_append_right _ (List.mem_cons_of_mem _ hmem))

/-- Nothing is written down twice. -/
theorem nodup (h : Preorder next met roots order) : order.Nodup := by
  induction h with
  | nil => exact List.nodup_nil
  | skip _ _ ih => exact ih
  | visit _ hbelow hrest ihbelow ihrest =>
    refine List.nodup_append.mpr ⟨List.nodup_cons.mpr ⟨fun hmem => ?_, ihbelow⟩, ihrest, ?_⟩
    · exact hbelow.not_met_of_mem hmem List.mem_cons_self
    · rintro k hk k' hk' rfl
      refine hrest.not_met_of_mem hk' ?_
      rcases List.mem_cons.mp hk with rfl | hk
      · exact List.mem_append_right _ List.mem_cons_self
      · exact List.mem_append_left _ hk

/-- The roots are met, and so is all that comes next to what is written down. -/
theorem closed (h : Preorder next met roots order) : (∀ root ∈ roots, root ∈ met ∨ root ∈ order) ∧
    ∀ k ∈ order, ∀ k' ∈ next k, k' ∈ met ∨ k' ∈ order := by
  induction h with
  | nil => exact ⟨nofun, nofun⟩
  | skip hmet _ ih =>
    refine ⟨fun root hroot => ?_, ih.2⟩
    rcases List.mem_cons.mp hroot with rfl | hroot
    · exact .inl hmet
    · exact ih.1 root hroot
  | @visit met root rest below after _ _ _ ihbelow ihrest =>
    -- What is met before the rest is walked is met before or written down by then.
    have hsort : ∀ k, k ∈ below ++ root :: met ∨ k ∈ after →
        k ∈ met ∨ k ∈ root :: below ++ after := by
      intro k hk
      simp only [List.mem_append, List.mem_cons] at hk ⊢
      tauto
    have hsortBelow : ∀ k, k ∈ root :: met ∨ k ∈ below → k ∈ met ∨ k ∈ root :: below ++ after := by
      intro k hk
      simp only [List.mem_append, List.mem_cons] at hk ⊢
      tauto
    refine ⟨fun k hk => ?_, fun k hk k' hk' => ?_⟩
    · rcases List.mem_cons.mp hk with rfl | hk
      · exact .inr (by simp)
      · exact hsort k (ihrest.1 k hk)
    · rcases List.mem_append.mp hk with hk | hk
      · rcases List.mem_cons.mp hk with rfl | hk
        · exact hsortBelow k' (ihbelow.1 k' hk')
        · exact hsortBelow k' (ihbelow.2 k hk k' hk')
      · exact hsort k' (ihrest.2 k hk k' hk')

/-- What is written down from the start is what the roots lead to. -/
theorem mem_iff (h : Preorder next [] roots order) :
    k ∈ order ↔ ∃ root ∈ roots, ReflTransGen (fun k k' => k' ∈ next k) root k := by
  refine ⟨h.exists_of_mem, ?_⟩
  rintro ⟨root, hroot, hpath⟩
  obtain ⟨hroots, hnext⟩ := h.closed
  induction hpath with
  | refl => exact (hroots root hroot).resolve_left nofun
  | tail _ hlast ih => exact (hnext _ ih _ hlast).resolve_left nofun

end Preorder

namespace Layout

variable {f g : Function} {met met' : List Spirv.Id} {stack : List Function}

/-- The walk depends on what has been met, not on when. -/
theorem callOrderFrom_congr (hsame : ∀ id, id ∈ met ↔ id ∈ met') :
    callOrderFrom met stack = callOrderFrom met' stack := by
  fun_induction callOrderFrom met stack generalizing met' with
  | case1 => rw [callOrderFrom]
  | case2 met f rest hmet ih => rw [callOrderFrom, if_pos ((hsame _).mp hmet), ih hsame]
  | case3 met f rest hmet ih =>
    have hsame' : ∀ id, id ∈ f.id :: met ↔ id ∈ f.id :: met' := fun id => by simp [hsame]
    rw [callOrderFrom, if_neg fun hmem => hmet ((hsame _).mpr hmem), ih hsame']

/-- The walk over one stack and then another. -/
theorem callOrderFrom_append (more : List Function) :
    callOrderFrom met (stack ++ more) = callOrderFrom met stack ++
      callOrderFrom ((callOrderFrom met stack).map Function.id ++ met) more := by
  fun_induction callOrderFrom met stack with
  | case1 => simp
  | case2 met f rest hmet ih => rw [List.cons_append, callOrderFrom, if_pos hmet, ih]
  | case3 met f rest hmet ih =>
    rw [List.cons_append, callOrderFrom, if_neg hmet, ← List.append_assoc, ih, List.cons_append]
    congr 2
    refine callOrderFrom_congr fun id => ?_
    simp only [List.map_cons, List.mem_append, List.mem_cons]
    tauto

/-- What the walk writes down for a function that it has not met. -/
theorem callOrderFrom_visit (hmet : f.id ∉ met) (rest : List Function) :
    callOrderFrom met (f :: rest) = f :: callOrderFrom (f.id :: met) f.callees ++
      callOrderFrom ((callOrderFrom (f.id :: met) f.callees).map Function.id ++ f.id :: met) rest := by
  rw [callOrderFrom, if_neg hmet, callOrderFrom_append, List.cons_append]

/-- Among functions of a family that are told apart by their ids as by their keys, the walk is a
depth-first preorder of keys. -/
theorem preorder_callOrderFrom {U : Function → Prop} {next : FunctionKey → List FunctionKey}
    (hcallees : ∀ f, U f → ∀ g ∈ f.callees, U g)
    (hids : ∀ f g, U f → U g → (f.id = g.id ↔ f.key = g.key))
    (hnext : ∀ f, U f → f.callees.map Function.key = next f.key) {done : List Function}
    (hdone : ∀ f ∈ done, U f) (hstack : ∀ f ∈ stack, U f) :
    Preorder next (done.map Function.key) (stack.map Function.key)
      ((callOrderFrom (done.map Function.id) stack).map Function.key) := by
  -- The stack grows with every call that is looked at, but its functions get smaller.
  induction hsize : sizeOf stack using Nat.strongRecOn generalizing stack done with
  | _ size ih =>
    subst hsize
    cases stack with
    | nil =>
      rw [callOrderFrom]
      exact .nil _
    | cons f rest =>
      have hf := hstack f List.mem_cons_self
      have hrest : ∀ g ∈ rest, U g := fun g hg => hstack g (List.mem_cons_of_mem f hg)
      have hmet : f.id ∈ done.map Function.id ↔ f.key ∈ done.map Function.key := by
        simp only [List.mem_map]
        constructor
        · rintro ⟨g, hg, heq⟩
          exact ⟨g, hg, (hids g f (hdone g hg) hf).mp heq⟩
        · rintro ⟨g, hg, heq⟩
          exact ⟨g, hg, (hids g f (hdone g hg) hf).mpr heq⟩
      have hless : sizeOf rest < sizeOf (f :: rest) := by
        simp only [List.cons.sizeOf_spec]
        omega
      by_cases hmem : f.id ∈ done.map Function.id
      · rw [callOrderFrom, if_pos hmem]
        exact .skip (hmet.mp hmem) (ih _ hless hdone hrest rfl)
      · have hinside : sizeOf f.callees < sizeOf (f :: rest) := by
          have hbelow : sizeOf f.callees < sizeOf f := by
            cases f
            simp only [Function.mk.sizeOf_spec]
            omega
          simp only [List.cons.sizeOf_spec]
          omega
        have hdone' : ∀ g ∈ f :: done, U g := List.forall_mem_cons.mpr ⟨hf, hdone⟩
        -- All that has been met below the function belongs to the family as well.
        have hwalked : ∀ g ∈ callOrderFrom (f.id :: done.map Function.id) f.callees, U g := by
          intro g hg
          obtain ⟨s, hs, hbelow⟩ := below_of_mem_callOrderFrom hg
          have hU := hcallees f hf s hs
          clear hs hg
          induction hbelow with
          | refl => exact hU
          | tail _ hlast ihpath => exact hcallees _ ihpath _ hlast
        have hbelow := ih _ hinside hdone' (hcallees f hf) rfl
        have hafter := ih _ hless
          (fun g hg => (List.mem_append.mp hg).elim (hwalked g) (hdone' g)) hrest rfl
        rw [hnext f hf] at hbelow
        rw [List.map_append, List.map_append] at hafter
        -- First what is below the function, then the rest with all of that met.
        rw [callOrderFrom_visit hmem, List.map_append]
        exact .visit (fun hkey => hmem (hmet.mpr hkey)) hbelow hafter

end Layout

end ShaderLowering
