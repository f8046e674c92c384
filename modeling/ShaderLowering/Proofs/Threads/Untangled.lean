import Mathlib.Tactic.Push
import ShaderLowering.Proofs.Threads.Waits

/-!
# Waits run in no circle

A thread *waits on* another one if it is recorded as waiting for a construction that is under way and
that the other one has begun.  No thread ever waits on itself, directly or through others
(`Untangled.acyclic`).  A record is made under the lock, and only by a thread that has followed the
chain of owners from the slot it asks for to an owner that waits on nobody; the owners and records that
it has followed stay as they are while it holds the lock (`Untangled.pursued`), so the record closes no
cycle (`acyclic_insert`).  All other moves only take waits away (`waitsOn_of_step`).
-/

namespace ShaderLowering.Construction

open Relation (ReflTransGen TransGen)

/-- If a relation is extended by one pair that closes no cycle, what is new leads through that pair. -/
theorem transGen_insert {α : Type} {r r' : α → α → Prop} {t p : α}
    (hnew : ∀ x y, r' x y → r x y ∨ x = t ∧ y = p) (hback : ¬ReflTransGen r p t) {x y : α}
    (h : TransGen r' x y) : TransGen r x y ∨ ReflTransGen r x t ∧ ReflTransGen r p y := by
  induction h with
  | single hxy =>
    rcases hnew _ _ hxy with hold | ⟨rfl, rfl⟩
    · exact .inl (.single hold)
    · exact .inr ⟨.refl, .refl⟩
  | tail _ hyz ih =>
    rcases ih with hold | ⟨hto, hfrom⟩ <;> rcases hnew _ _ hyz with hedge | ⟨rfl, rfl⟩
    · exact .inl (hold.tail hedge)
    · exact .inr ⟨hold.to_reflTransGen, .refl⟩
    · exact .inr ⟨hto, hfrom.tail hedge⟩
    · exact absurd hfrom hback

/-- A relation without cycles has none after it is extended by a pair that closes none. -/
theorem acyclic_insert {α : Type} {r r' : α → α → Prop} {t p : α} (hacyclic : ∀ x, ¬TransGen r x x)
    (hnew : ∀ x y, r' x y → r x y ∨ x = t ∧ y = p) (hback : ¬ReflTransGen r p t) (x : α) :
    ¬TransGen r' x x := by
  intro hcycle
  rcases transGen_insert hnew hback hcycle with hold | ⟨hto, hfrom⟩
  · exact hacyclic x hold
  · exact hback (hfrom.trans hto)

namespace Board

variable {κ : Type}

/-- A thread is recorded as waiting for a key that another thread has begun to construct. -/
def LinksTo (b : Board κ) (t o : ThreadId) : Prop :=
  ∃ k s, b.waiting t = some k ∧ b.slot k = some s ∧ s.owner = o

/-- A thread is recorded as waiting for a construction that is under way on another thread. -/
def WaitsOn (b : Board κ) (t o : ThreadId) : Prop :=
  ∃ k s, b.waiting t = some k ∧ b.slot k = some s ∧ s.finished = false ∧ s.owner = o

/-- Waits run in no circle, and threads that follow chains of waits, wait, or publish are where they
ought to be. -/
structure Untangled (b : Board κ) : Prop where
  acyclic : ∀ t, ¬TransGen b.WaitsOn t t
  pursued : ∀ t k o, b.stage t = .wait k (.chase o) →
    ∃ s, b.slot k = some s ∧ ReflTransGen (fun x y => x ≠ t ∧ b.LinksTo x y) s.owner o
  enlisted : ∀ t k, b.stage t = .wait k .await ∨ b.stage t = .wait k .asleep →
    b.waiting t = some k ∨ ¬b.Unfinished k
  publishing : ∀ t, b.stage t = .publish → b.keys t ≠ []

variable {b b' : Board κ} {t u x y o : ThreadId} {k : κ}

theorem WaitsOn.linksTo (h : b.WaitsOn x y) : b.LinksTo x y := by
  obtain ⟨k, s, hwaiting, hslot, -, howner⟩ := h
  exact ⟨k, s, hwaiting, hslot, howner⟩

theorem LinksTo.unique (hx : b.LinksTo t x) (hy : b.LinksTo t y) : x = y := by
  obtain ⟨k, s, hwaiting, hslot, rfl⟩ := hx
  obtain ⟨k', s', hwaiting', hslot', rfl⟩ := hy
  obtain rfl := Option.some.inj (hwaiting.symm.trans hwaiting')
  obtain rfl := Option.some.inj (hslot.symm.trans hslot')
  rfl

/-- From a chain of links that leads past a thread to the end of all waits, no waits lead to that
thread. -/
theorem not_waitsOn_of_pursued (hother : o ≠ t) (hend : ∀ y, ¬b.WaitsOn o y)
    (hpath : ReflTransGen (fun x y => x ≠ t ∧ b.LinksTo x y) x o) :
    ¬ReflTransGen b.WaitsOn x t := by
  induction hpath using ReflTransGen.head_induction_on with
  | refl =>
    intro hwaits
    rcases ReflTransGen.cases_head hwaits with heq | ⟨y, hedge, -⟩
    · exact hother heq
    · exact hend y hedge
  | head hlink _ ih =>
    intro hwaits
    rcases ReflTransGen.cases_head hwaits with heq | ⟨y, hedge, hrest⟩
    · exact hlink.1 heq
    · obtain rfl := hedge.linksTo.unique hlink.2
      exact ih hrest

section Moves

variable [DecidableEq κ]

/-- A wait is new only if it has just been recorded, by a thread that has come to the end of a chain of
waits. -/
theorem waitsOn_of_step (h : b.Coherent) (hstep : b.Step u b') (hwaits : b'.WaitsOn x y) :
    b.WaitsOn x y ∨ x = u ∧ ∃ k o s, b.stage u = .wait k (.chase o) ∧ o ≠ u ∧
      (∀ link, b.waiting o = some link → ¬b.Unfinished link) ∧ b.slot k = some s ∧ s.owner = y := by
  obtain ⟨k, s, hwaiting, hslot, hflag, howner⟩ := hwaits
  cases hstep with
  | @install k₀ hstage hfree =>
    -- A link that is recorded leads to a slot that is taken, and the new one was free.
    have hne : k ≠ k₀ := by
      rintro rfl
      have hsome := h.isSome_of_recorded hwaiting
      rw [hfree] at hsome
      cases hsome
    exact .inl ⟨k, s, hwaiting, by simpa [hne] using hslot, hflag, howner⟩
  | @finish k₀ ks hstage hkeys =>
    have hne : k ≠ k₀ := by
      rintro rfl
      simp only [Function.update_self, Option.map_eq_some_iff] at hslot
      obtain ⟨s', -, rfl⟩ := hslot
      cases hflag
    exact .inl ⟨k, s, hwaiting, by simpa [hne] using hslot, hflag, howner⟩
  | @settle k₀ ks hstage hkeys =>
    by_cases hk : k = k₀
    · subst hk
      simp only [Function.update_self, Option.map_eq_some_iff] at hslot
      obtain ⟨s', hs', rfl⟩ := hslot
      exact .inl ⟨k, s', hwaiting, hs', hflag, howner⟩
    · exact .inl ⟨k, s, hwaiting, by simpa [hk] using hslot, hflag, howner⟩
  -- The one new link is that of the thread that commits.
  | @commit k₀ o hstage hother hend =>
    by_cases hx : x = u
    · subst hx
      simp only [Function.update_self, Option.some.injEq] at hwaiting
      subst hwaiting
      exact .inr ⟨rfl, k₀, o, s, hstage, hother, hend, hslot, howner⟩
    · exact .inl ⟨k, s, by simpa [hx] using hwaiting, hslot, hflag, howner⟩
  | leave hstage hlock =>
    have hx : x ≠ u := by
      rintro rfl
      simp only [Function.update_self] at hwaiting
      cases hwaiting
    exact .inl ⟨k, s, by simpa [hx] using hwaiting, hslot, hflag, howner⟩
  | _ => exact .inl ⟨k, s, hwaiting, hslot, hflag, howner⟩

/-- While a thread holds the lock, the waits of the others do not become more. -/
theorem waitsOn_of_step_of_locked (h : b.Coherent) (hstep : b.Step u b') (hne : t ≠ u)
    (hchasing : (b.stage t).Chasing) (hwaits : b'.WaitsOn x y) : b.WaitsOn x y := by
  rcases waitsOn_of_step h hstep hwaits with hold | ⟨-, k, o, s, hstage, -⟩
  · exact hold
  · exact absurd (h.eq_of_chasing ⟨k, .inr ⟨o, hstage⟩⟩ hchasing) hne

/-- Links of a chain stay as they are while another thread that follows the chain holds the lock. -/
theorem linksTo_of_step (hstep : b.Step u b') (hwaiting : b'.waiting = b.waiting)
    (hlink : b.LinksTo x y) : b'.LinksTo x y := by
  obtain ⟨k, s, hk, hslot, howner⟩ := hlink
  obtain ⟨s', hslot', howner', -⟩ := hstep.slot_of_some hslot
  exact ⟨k, s', by rw [hwaiting]; exact hk, hslot', howner'.trans howner⟩

namespace Untangled

theorem acyclic_step (h : b.Coherent) (hb : b.Untangled) (hstep : b.Step u b') (t : ThreadId) :
    ¬TransGen b'.WaitsOn t t := by
  by_cases hold : ∀ x y, b'.WaitsOn x y → b.WaitsOn x y
  · exact fun hcycle => hb.acyclic t (TransGen.mono hold _ _ hcycle)
  -- A new wait has been recorded at the end of a chain.
  push Not at hold
  obtain ⟨x, y, hwaits, hnew⟩ := hold
  obtain ⟨-, k, o, s, hstage, hother, hend, hslot, -⟩ :=
    (waitsOn_of_step h hstep hwaits).resolve_left hnew
  obtain ⟨s', hslot', hpath⟩ := hb.pursued u k o hstage
  obtain rfl := Option.some.inj (hslot.symm.trans hslot')
  have hlast : ∀ y, ¬b.WaitsOn o y := by
    rintro y ⟨link, s', hlink, hs', hflag, -⟩
    exact hend link hlink ⟨s', hs', hflag⟩
  refine acyclic_insert hb.acyclic (fun x y hxy => ?_) (not_waitsOn_of_pursued hother hlast hpath) t
  refine (waitsOn_of_step h hstep hxy).imp_right ?_
  rintro ⟨hx, k', o', s', hstage', -, -, hslot', hy⟩
  obtain ⟨rfl, -⟩ := Stage.wait.inj (hstage.symm.trans hstage')
  obtain rfl := Option.some.inj (hslot.symm.trans hslot')
  exact ⟨hx, hy.symm⟩

theorem pursued_step (h : b.Coherent) (hb : b.Untangled) (hstep : b.Step u b')
    (hstage' : b'.stage t = .wait k (.chase o)) :
    ∃ s, b'.slot k = some s ∧ ReflTransGen (fun x y => x ≠ t ∧ b'.LinksTo x y) s.owner o := by
  by_cases hne : t = u
  case neg =>
    have hstage : b.stage t = .wait k (.chase o) := (hstep.stage_of_ne hne).symm.trans hstage'
    have hchasing : (b.stage t).Chasing := ⟨k, .inr ⟨o, hstage⟩⟩
    have hlock := (h.locked t).mpr hchasing
    have hidle : ¬(b.stage u).Chasing := fun hu => hne (h.eq_of_chasing hu hchasing)
    have hwaiting := waiting_step hstep (by simp [hlock]) hidle
    obtain ⟨s, hslot, hpath⟩ := hb.pursued t k o hstage
    obtain ⟨s', hslot', howner, -⟩ := hstep.slot_of_some hslot
    rw [← howner] at hpath
    exact ⟨s', hslot', ReflTransGen.mono
      (fun x y hxy => ⟨hxy.1, linksTo_of_step hstep hwaiting hxy.2⟩) _ _ hpath⟩
  subst hne
  cases hstep with
  | run hstage =>
    rw [hstage] at hstage'
    cases hstage'
  | install hstage hslot =>
    rw [hstage] at hstage'
    cases hstage'
  | @chase k₀ s hstage hslot hopen =>
    simp only [Function.update_self, Stage.wait.injEq, Phase.chase.injEq] at hstage'
    obtain ⟨rfl, rfl⟩ := hstage'
    exact ⟨s, hslot, .refl⟩
  | @follow k₀ link o' s hstage hother hlink hslot hopen =>
    simp only [Function.update_self, Stage.wait.injEq, Phase.chase.injEq] at hstage'
    obtain ⟨rfl, rfl⟩ := hstage'
    obtain ⟨s', hslot', hpath⟩ := hb.pursued t k₀ o' hstage
    exact ⟨s', hslot', hpath.tail ⟨hother, link, s, hlink, hslot, rfl⟩⟩
  | _ => simp at hstage'

theorem enlisted_step (h : b.Coherent) (hb : b.Untangled) (hstep : b.Step u b')
    (hstage' : b'.stage t = .wait k .await ∨ b'.stage t = .wait k .asleep) :
    b'.waiting t = some k ∨ ¬b'.Unfinished k := by
  by_cases hne : t = u
  case neg =>
    rw [hstep.stage_of_ne hne] at hstage'
    have hwaiting : b'.waiting t = b.waiting t := by
      cases hstep <;> simp [Function.update_of_ne hne]
    have hknown : (b.slot k).isSome := by
      rcases hstage' with hstage | hstage <;> exact h.known t k _ hstage
    rw [hwaiting]
    exact (hb.enlisted t k hstage').imp_right fun hdone hopen =>
      hdone (unfinished_of_step hstep hknown hopen)
  subst hne
  cases hstep with
  | run hstage | install hstage =>
    rw [hstage] at hstage'
    rcases hstage' with hstage' | hstage' <;> cases hstage'
  | skip hstage hdone =>
    simp only [Function.update_self, Stage.wait.injEq, reduceCtorEq, and_true, and_false,
      or_false] at hstage'
    exact .inr (hstage' ▸ hdone)
  | commit hstage =>
    simp only [Function.update_self, Stage.wait.injEq, reduceCtorEq, and_true, and_false,
      or_false] at hstage'
    exact .inl (by simp [hstage'])
  | @doze k₀ hstage =>
    simp only [Function.update_self, Stage.wait.injEq, reduceCtorEq, and_true, and_false,
      false_or] at hstage'
    exact hb.enlisted t k (.inl (hstage' ▸ hstage))
  | @stir k₀ hstage =>
    simp only [Function.update_self, Stage.wait.injEq, reduceCtorEq, and_true, and_false,
      or_false] at hstage'
    exact hb.enlisted t k (.inr (hstage' ▸ hstage))
  | _ => simp at hstage'

theorem publishing_step (hb : b.Untangled) (hstep : b.Step u b') (hstage' : b'.stage t = .publish) :
    b'.keys t ≠ [] := by
  by_cases hne : t = u
  case neg =>
    rw [hstep.stage_of_ne hne] at hstage'
    rw [hstep.keys_of_ne hne]
    exact hb.publishing t hstage'
  subst hne
  cases hstep with
  | run hstage | install hstage =>
    rw [hstage] at hstage'
    cases hstage'
  | finish hstage hkeys => exact fun hnil => by cases hkeys.symm.trans hnil
  | _ => simp at hstage'

theorem step (h : b.Coherent) (hb : b.Untangled) (hstep : b.Step u b') : b'.Untangled :=
  ⟨acyclic_step h hb hstep, fun _ _ _ => pursued_step h hb hstep,
    fun _ _ => enlisted_step h hb hstep, fun _ => publishing_step hb hstep⟩

end Untangled

variable {o' : ThreadId} {k' : κ}

/-- The next link of a chain is waited on by the one before. -/
theorem waitsOn_of_follow (hstep : b.Step t b') (hstage : b.stage t = .wait k (.chase o))
    (hstage' : b'.stage t = .wait k' (.chase o')) :
    b.WaitsOn o o' ∧ ∀ x y, b'.WaitsOn x y → b.WaitsOn x y := by
  cases hstep with
  | @follow k₀ link o₀ s hstage₀ hother hlink hslot hopen =>
    simp only [Function.update_self, Stage.wait.injEq, Phase.chase.injEq] at hstage'
    obtain ⟨-, rfl⟩ := hstage'
    obtain ⟨-, heq⟩ := Stage.wait.inj (hstage₀.symm.trans hstage)
    obtain rfl := Phase.chase.inj heq
    exact ⟨⟨link, s, hlink, hslot, hopen, rfl⟩, fun x y hxy => hxy⟩
  | run hstage₀ | install hstage₀ | finish hstage₀ | settle hstage₀ | request hstage₀ | answer hstage₀
  | queue hstage₀ | enter hstage₀ | skip hstage₀ | chase hstage₀ | wake hstage₀ | doze hstage₀
  | stir hstage₀ | leave hstage₀ => cases hstage₀.symm.trans hstage
  | refuse | commit => simp at hstage'

/-- A thread that follows a chain of waits does not begin anew. -/
theorem stage_ne_check (hstep : b.Step t b') (hchasing : (b.stage t).Chasing) :
    b'.stage t ≠ .wait k .check := by
  obtain ⟨k', hstage⟩ := hchasing
  intro hstage'
  cases hstep with
  | run hstage₀ | install hstage₀ | enter hstage₀ =>
    rcases hstage with hstage | ⟨o, hstage⟩ <;> cases hstage₀.symm.trans hstage
  | _ => simp at hstage'

end Moves

end Board

end ShaderLowering.Construction
