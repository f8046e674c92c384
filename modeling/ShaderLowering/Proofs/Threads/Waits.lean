import Mathlib.Logic.Relation
import ShaderLowering.Proofs.Threads.Coherence

/-!
# Chains of waits

The constructions of a thread wait for each other from the outside in, and the innermost one waits
for the slot that the thread has asked for: the *chain* of a thread lists these keys, each after the
one that it waits for.  `Awaits` relates neighbours on a chain.  `Requires` relates only those of them
that cannot go apart unless the inner construction comes to its end: both are under way, and the inner
one is nested in the outer one or blocks its thread.

A thread that is about to wait follows the chain of waits from slot to owner to slot.  Meanwhile the
other threads go on, so what it has seen may be out of date; `Chased` is what is left of it.  As long
as the construction it has come to is under way, so are all those before it, and none of the waits
between them can have ended (`requires_path_step`).  Hence a refusal is never unfounded:
`requires_of_refused` says that a request is only refused if the slot it asks for requires the very
construction that makes the request.
-/

namespace ShaderLowering.Construction

open Relation (ReflTransGen TransGen)

namespace Board

variable {κ : Type}

/-- The key that a thread has asked for and waits for. -/
def awaited (b : Board κ) (t : ThreadId) : List κ :=
  match b.stage t with
  | .wait k _ => [k]
  | _ => []

/-- The keys that a thread is concerned with, each after the one that it waits for. -/
def chain (b : Board κ) (t : ThreadId) : List κ :=
  b.awaited t ++ b.keys t

/-- The construction of one key waits for another key. -/
def Awaits (b : Board κ) (outer inner : κ) : Prop :=
  ∃ t, [inner, outer] <:+: b.chain t

/-- A thread is recorded as waiting for a key, and waits for its slot. -/
def Blocked (b : Board κ) (t : ThreadId) (k : κ) : Prop :=
  b.waiting t = some k ∧ (b.stage t = .wait k .await ∨ b.stage t = .wait k .asleep)

/-- The factory of one key is running the request for another one: the other construction is nested in
it on the same thread, or its thread is blocked waiting for the other construction. -/
def Runs (b : Board κ) (outer inner : κ) : Prop :=
  ∃ t, [inner, outer] <:+: b.keys t ∨ (b.keys t).head? = some outer ∧ b.Blocked t inner

/-- Two constructions are in flight, and the factory of the first is running the request for the
second. -/
def Requires (b : Board κ) (outer inner : κ) : Prop :=
  b.Unfinished outer ∧ b.Unfinished inner ∧ b.Runs outer inner

variable {b b' : Board κ} {t u : ThreadId} {k k' x y : κ}

theorem chain_of_wait {phase : Phase} (h : b.stage t = .wait k phase) :
    b.chain t = k :: b.keys t := by
  simp [chain, awaited, h]

theorem chain_of_run (h : b.stage t = .run) : b.chain t = b.keys t := by
  simp [chain, awaited, h]

theorem chain_of_leave (h : b.stage t = .leave k) : b.chain t = b.keys t := by
  simp [chain, awaited, h]

theorem chain_of_publish (h : b.stage t = .publish) : b.chain t = b.keys t := by
  simp [chain, awaited, h]

/-- Neighbours on a list are neighbours on its tail, unless the first of them is its head. -/
theorem infix_tail_of_ne {x y z : κ} {l : List κ} (h : [y, x] <:+: z :: l) (hne : y ≠ z) :
    [y, x] <:+: l := by
  rcases List.infix_cons_iff.mp h with hbegins | hpart
  · exact absurd (List.cons_prefix_cons.mp hbegins).1 hne
  · exact hpart

/-- Every key on a list below a key waits for that key. -/
theorem transGen_of_mem {l : List κ} (hmem : k ∈ l) :
    TransGen (fun outer inner => [inner, outer] <:+: k' :: l) k k' := by
  induction l generalizing k' with
  | nil => cases hmem
  | cons h l ih =>
    have hlast : [k', h] <:+: k' :: h :: l := List.IsPrefix.isInfix ⟨l, rfl⟩
    rcases List.mem_cons.mp hmem with rfl | hmem
    · exact .single hlast
    · refine TransGen.tail (TransGen.mono (fun x y hxy => ?_) _ _ (ih hmem)) hlast
      exact List.IsInfix.trans hxy (List.IsSuffix.isInfix ⟨[k'], rfl⟩)

theorem Runs.awaits (h : b.Runs x y) : b.Awaits x y := by
  obtain ⟨t, hnested | ⟨hhead, -, hstage⟩⟩ := h
  · exact ⟨t, hnested.trans (List.IsSuffix.isInfix ⟨b.awaited t, rfl⟩)⟩
  · obtain ⟨rest, hkeys⟩ := List.head?_eq_some_iff.mp hhead
    refine ⟨t, ?_⟩
    have hchain : b.chain t = y :: b.keys t := by
      rcases hstage with hstage | hstage <;> exact chain_of_wait hstage
    rw [hchain, hkeys]
    exact List.IsPrefix.isInfix ⟨rest, rfl⟩

namespace Coherent

theorem mem_keys_of_unfinished (h : b.Coherent) (hopen : b.Unfinished k) :
    ∃ s, b.slot k = some s ∧ s.finished = false ∧ k ∈ b.keys s.owner := by
  obtain ⟨s, hs, hflag⟩ := hopen
  refine ⟨s, hs, hflag, ?_⟩
  rcases h.built k s hs with hmem | ⟨-, hdone⟩
  · exact hmem
  · rw [hflag] at hdone
    cases hdone

theorem not_unfinished_of_settled (h : b.Coherent) (hset : b.Settled k) : ¬b.Unfinished k := by
  intro hopen
  obtain ⟨s, hs, -, hmem⟩ := h.mem_keys_of_unfinished hopen
  obtain ⟨s', hs', -, hbuilding, -⟩ := h.stacked _ k hmem
  obtain ⟨s'', hs'', hsettled⟩ := hset
  rw [hs'] at hs''
  obtain rfl := Option.some.inj hs''
  rw [hsettled] at hbuilding
  cases hbuilding

theorem isSome_of_recorded (h : b.Coherent) (hwaiting : b.waiting t = some k) :
    (b.slot k).isSome := by
  rcases h.recorded t k hwaiting with hstage | hstage | hstage
  · exact h.known t k _ hstage
  · exact h.known t k _ hstage
  · obtain ⟨s, hs, -⟩ := h.left t k hstage
    simp [hs]

/-- A construction that waits is under way. -/
theorem unfinished_of_awaits (h : b.Coherent) (hawaits : b.Awaits k k') : b.Unfinished k := by
  obtain ⟨t, hpart⟩ := hawaits
  have hkey : k ∈ b.keys t ∧ (b.stage t = .publish → (b.keys t).head? ≠ some k) := by
    have hnodup := h.nodup t
    cases hstage : b.stage t with
    | wait k₀ phase =>
      rw [chain_of_wait hstage] at hpart
      refine ⟨?_, nofun⟩
      rcases List.infix_cons_iff.mp hpart with hbegins | hinner
      · obtain ⟨-, l, hl⟩ := List.cons_prefix_cons.mp hbegins
        simp [← hl]
      · exact hinner.subset (by simp)
    | run =>
      rw [chain_of_run hstage] at hpart
      exact ⟨hpart.subset (by simp), nofun⟩
    | leave k₀ =>
      rw [chain_of_leave hstage] at hpart
      exact ⟨hpart.subset (by simp), nofun⟩
    | publish =>
      rw [chain_of_publish hstage] at hpart
      -- A thread that publishes has let go of its innermost construction: that one heads the keys,
      -- and a chain has no key twice.
      refine ⟨hpart.subset (by simp), fun _ hhead => ?_⟩
      obtain ⟨pre, post, hl⟩ := hpart
      rw [← hl] at hhead hnodup
      cases pre with
      | nil =>
        simp only [List.nil_append, List.cons_append, List.head?_cons, Option.some.injEq] at hhead
        simp [hhead] at hnodup
      | cons z pre =>
        simp only [List.cons_append, List.head?_cons, Option.some.injEq] at hhead
        simp [hhead] at hnodup
  obtain ⟨s, hs, -, -, hflag⟩ := h.stacked t k hkey.1
  refine ⟨s, hs, ?_⟩
  by_contra hdone
  have hpub := hflag.mp (eq_true_of_ne_false hdone)
  exact hkey.2 hpub.1 hpub.2

theorem requires_of_runs (h : b.Coherent) (hruns : b.Runs x y) (hopen : b.Unfinished y) :
    b.Requires x y :=
  ⟨h.unfinished_of_awaits hruns.awaits, hopen, hruns⟩

/-- The constructions of a thread are under way, unless it has just come to the end of one. -/
theorem unfinished_of_mem_keys (h : b.Coherent) (hmem : k ∈ b.keys t) (hstage : b.stage t ≠ .publish) :
    b.Unfinished k := by
  obtain ⟨s, hs, -, -, hflag⟩ := h.stacked t k hmem
  exact ⟨s, hs, Bool.eq_false_iff.mpr fun hraised => hstage (hflag.mp hraised).1⟩

/-- Constructions on a stack require each other from the outside in. -/
theorem requires_head_of_mem (h : b.Coherent) (hstage : b.stage t ≠ .publish) (hmem : k ∈ b.keys t)
    (hhead : (b.keys t).head? = some x) : ReflTransGen b.Requires k x := by
  obtain ⟨rest, hkeys⟩ := List.head?_eq_some_iff.mp hhead
  rw [hkeys] at hmem
  rcases List.mem_cons.mp hmem with rfl | hrest
  · exact .refl
  · refine (TransGen.mono (fun outer inner hpart => ?_) _ _ (transGen_of_mem hrest)).to_reflTransGen
    rw [← hkeys] at hpart
    exact h.requires_of_runs ⟨t, .inl hpart⟩ (h.unfinished_of_mem_keys (hpart.subset (by simp)) hstage)

/-- A thread that is recorded as waiting for a construction under way is blocked by it. -/
theorem blocked_of_recorded (h : b.Coherent) (hwaiting : b.waiting t = some k)
    (hopen : b.Unfinished k) : b.Blocked t k := by
  rcases h.recorded t k hwaiting with hstage | hstage | hstage
  · exact ⟨hwaiting, .inl hstage⟩
  · exact ⟨hwaiting, .inr hstage⟩
  · exact absurd hopen (h.not_unfinished_of_settled (h.left t k hstage))

end Coherent

/-! ## Following a chain of waits -/

/-- What a thread that follows the chain of waits from `k` knows of the owner that it has come to:
the owner constructs a key that `k` waits for, and if the owner waits in turn it is still at it. -/
structure Trail (b : Board κ) (t : ThreadId) (k : κ) (o : ThreadId) (k' : κ) (s : Standing) :
    Prop where
  slot : b.slot k' = some s
  owner : s.owner = o
  unfinished : o = t ∨ (∃ link, b.waiting o = some link ∧ b.Unfinished link) → b.Unfinished k'
  path : b.Unfinished k' → ReflTransGen b.Requires k k'

/-- Every thread that follows a chain of waits is on a trail. -/
def Chased (b : Board κ) : Prop :=
  ∀ t k o, b.stage t = .wait k (.chase o) → ∃ k' s, b.Trail t k o k' s

/-- From the key that a trail has come to, the owner waits for the slot that it is recorded for. -/
theorem requires_of_recorded (h : b.Coherent) {o : ThreadId} {s : Standing} {link : κ}
    (htrail : b.Trail t k o k' s) (hunfinished : b.Unfinished k')
    (hlink : b.waiting o = some link) (hopen : b.Unfinished link) :
    ReflTransGen b.Requires k' link := by
  obtain ⟨s', hs', -, hmem⟩ := h.mem_keys_of_unfinished hunfinished
  obtain rfl : s' = s := Option.some.inj (hs'.symm.trans htrail.slot)
  rw [htrail.owner] at hmem
  obtain ⟨outer, rest, hkeys⟩ := List.exists_cons_of_ne_nil (List.ne_nil_of_mem hmem)
  have hhead : (b.keys o).head? = some outer := by rw [hkeys]; rfl
  have hblocked := h.blocked_of_recorded hlink hopen
  have hstage : b.stage o ≠ .publish := by
    rcases hblocked.2 with hstage | hstage <;> rw [hstage] <;> nofun
  exact (h.requires_head_of_mem hstage hmem hhead).tail
    (h.requires_of_runs ⟨o, .inr ⟨hhead, hblocked⟩⟩ hopen)

/-- A request that is about to be refused asks for a construction that requires the one that makes the
request. -/
theorem requires_of_refused (h : b.Coherent) (hchased : b.Chased)
    (hstage : b.stage t = .wait k (.chase t)) :
    b.Unfinished k ∧ ∃ outer, (b.keys t).head? = some outer ∧ ReflTransGen b.Requires k outer := by
  obtain ⟨k', s, htrail⟩ := hchased t k t hstage
  have hopen := htrail.unfinished (.inl rfl)
  have hpath := htrail.path hopen
  obtain ⟨s', hs', -, hmem⟩ := h.mem_keys_of_unfinished hopen
  obtain rfl : s' = s := Option.some.inj (hs'.symm.trans htrail.slot)
  rw [htrail.owner] at hmem
  obtain ⟨outer, rest, hkeys⟩ := List.exists_cons_of_ne_nil (List.ne_nil_of_mem hmem)
  have hhead : (b.keys t).head? = some outer := by rw [hkeys]; rfl
  refine ⟨?_, outer, hhead, hpath.trans (h.requires_head_of_mem (by rw [hstage]; nofun) hmem hhead)⟩
  rcases ReflTransGen.cases_head hpath with rfl | ⟨next, hedge, -⟩
  · exact hopen
  · exact hedge.1

/-- A request that is about to be refused asks for a slot that waits for itself. -/
theorem awaits_of_refused (h : b.Coherent) (hchased : b.Chased)
    (hstage : b.stage t = .wait k (.chase t)) : TransGen b.Awaits k k := by
  obtain ⟨-, outer, hhead, hpath⟩ := requires_of_refused h hchased hstage
  obtain ⟨rest, hkeys⟩ := List.head?_eq_some_iff.mp hhead
  have hlast : b.Awaits outer k := by
    refine ⟨t, ?_⟩
    rw [chain_of_wait hstage, hkeys]
    exact List.IsPrefix.isInfix ⟨rest, rfl⟩
  exact TransGen.tail' (ReflTransGen.mono (fun _ _ hedge => hedge.2.2.awaits) _ _ hpath) hlast

/-! ## Moves -/

variable [DecidableEq κ]

namespace Step

theorem stage_of_ne (hstep : b.Step u b') (hne : t ≠ u) : b'.stage t = b.stage t := by
  cases hstep <;> simp [Function.update_of_ne hne]

theorem keys_of_ne (hstep : b.Step u b') (hne : t ≠ u) : b'.keys t = b.keys t := by
  cases hstep <;> simp [Function.update_of_ne hne]

/-- A slot keeps its owner, and its flag is never lowered. -/
theorem slot_of_some (hstep : b.Step u b') {s : Standing} (hs : b.slot k = some s) :
    ∃ s', b'.slot k = some s' ∧ s'.owner = s.owner ∧ (s.finished = true → s'.finished = true) := by
  cases hstep <;> grind [Function.update_apply]

end Step

/-- While nobody changes the records, a request ends only when the construction that it waits for is
finished. -/
theorem runs_step (h : b.Coherent) (hstep : b.Step u b') (hwaiting : b'.waiting = b.waiting)
    (hruns : b.Runs x y) (hopen : b'.Unfinished y) : b'.Runs x y := by
  have h' := h.step hstep
  obtain ⟨t, hruns⟩ := hruns
  refine ⟨t, ?_⟩
  by_cases hne : t = u
  case neg => rwa [Blocked, hstep.keys_of_ne hne, hstep.stage_of_ne hne, hwaiting, ← Blocked]
  subst hne
  rcases hruns with hnested | ⟨hhead, hblocked, hstage⟩
  · left
    cases hstep with
    | @install k₀ =>
      simp only [Function.update_self]
      exact hnested.trans (List.IsSuffix.isInfix ⟨[k₀], rfl⟩)
    | @settle k₀ ks _ hkeys =>
      -- The construction that has come to its end is not the inner one.
      rw [hkeys] at hnested
      simp only [Function.update_self]
      refine infix_tail_of_ne hnested ?_
      rintro rfl
      obtain ⟨s, hs, -⟩ := h.stacked t y (by simp [hkeys])
      exact h'.not_unfinished_of_settled ⟨{ s with building := false }, by simp [hs], rfl⟩ hopen
    | _ => exact hnested
  · right
    have hsame : ∀ {k₀ phase}, b.stage t = .wait k₀ phase → k₀ = y := by
      intro k₀ phase hstage₀
      rcases hstage with hstage | hstage <;> exact (Stage.wait.inj (hstage₀.symm.trans hstage)).1
    cases hstep with
    | @wake k₀ hstage₀ hset =>
      obtain rfl := hsame hstage₀
      exact absurd hopen (h'.not_unfinished_of_settled hset)
    | @doze k₀ hstage₀ =>
      obtain rfl := hsame hstage₀
      exact ⟨hhead, hblocked, .inr (Function.update_self ..)⟩
    | @stir k₀ hstage₀ =>
      obtain rfl := hsame hstage₀
      exact ⟨hhead, hblocked, .inl (Function.update_self ..)⟩
    | run hstage₀ | request hstage₀ | install hstage₀ | finish hstage₀ | settle hstage₀
    | answer hstage₀ | queue hstage₀ | enter hstage₀ | skip hstage₀ | chase hstage₀ | refuse hstage₀
    | commit hstage₀ | follow hstage₀ | leave hstage₀ =>
      rcases hstage with hstage | hstage <;> cases hstage₀.symm.trans hstage

/-- A chain of waits that ends at a construction under way has not changed. -/
theorem requires_path_step (h : b.Coherent) (hstep : b.Step u b') (hwaiting : b'.waiting = b.waiting)
    (hpath : ReflTransGen b.Requires k k') (hopen : b'.Unfinished k') :
    ReflTransGen b'.Requires k k' := by
  induction hpath with
  | refl => exact .refl
  | tail _ hedge ih =>
    have hruns := runs_step h hstep hwaiting hedge.2.2 hopen
    have hkept := (h.step hstep).requires_of_runs hruns hopen
    exact (ih hkept.1).tail hkept

/-- A construction goes on unless its thread is at work. -/
theorem unfinished_step (h : b.Coherent) (hstep : b.Step u b') {s : Standing}
    (hs : b.slot k = some s) (hflag : s.finished = false) (hidle : s.owner = u → b.stage u ≠ .run) :
    b'.Unfinished k := by
  cases hstep with
  | @finish k₀ ks hstage hkeys =>
    -- A flag is raised by the thread that owns the slot, and only from its task.
    have hne : k ≠ k₀ := by
      rintro rfl
      obtain ⟨s', hs', howner, -⟩ := h.stacked u k (by simp [hkeys])
      rw [hs] at hs'
      obtain rfl := Option.some.inj hs'
      exact hidle howner hstage
    exact ⟨s, by simpa [hne] using hs, hflag⟩
  | @settle k₀ ks hstage hkeys =>
    by_cases hk : k = k₀
    · exact ⟨{ s with building := false }, by simp [← hk, hs], hflag⟩
    · exact ⟨s, by simpa [hk] using hs, hflag⟩
  | @install k₀ hstage hslot =>
    have hne : k ≠ k₀ := by
      rintro rfl
      rw [hs] at hslot
      cases hslot
    exact ⟨s, by simpa [hne] using hs, hflag⟩
  | _ => exact ⟨s, hs, hflag⟩

/-- A slot whose flag is down has not had it raised before. -/
theorem unfinished_of_step (hstep : b.Step u b') (hslot : (b.slot k).isSome)
    (hopen : b'.Unfinished k) : b.Unfinished k := by
  obtain ⟨s, hs⟩ := Option.isSome_iff_exists.mp hslot
  obtain ⟨s', hs', -, hraised⟩ := hstep.slot_of_some hs
  obtain ⟨s'', hs'', hflag⟩ := hopen
  rw [hs'] at hs''
  obtain rfl := Option.some.inj hs''
  refine ⟨s, hs, ?_⟩
  by_contra hdone
  rw [hraised (eq_true_of_ne_false hdone)] at hflag
  cases hflag

/-- The records do not change while another thread holds the lock. -/
theorem waiting_step (hstep : b.Step u b') (hlock : b.lock ≠ none)
    (hidle : ¬Stage.Chasing (b.stage u)) : b'.waiting = b.waiting := by
  cases hstep with
  | commit hstage => exact absurd ⟨_, .inr ⟨_, hstage⟩⟩ hidle
  | leave hstage hfree => exact absurd hfree hlock
  | _ => rfl

/-- The moves of other threads leave a trail as it is. -/
theorem trail_of_ne (h : b.Coherent) (hstep : b.Step u b') {o : ThreadId} {s : Standing}
    (hne : t ≠ u) (hstage : b.stage t = .wait k (.chase o)) (htrail : b.Trail t k o k' s) :
    ∃ s', b'.Trail t k o k' s' := by
  have hlock : b.lock = some t := (h.locked t).mpr ⟨k, .inr ⟨o, hstage⟩⟩
  have hidle : ¬Stage.Chasing (b.stage u) := fun hu => hne (h.eq_of_chasing hu ((h.locked _).mp hlock))
  have hwaiting : b'.waiting = b.waiting := waiting_step hstep (by simp [hlock]) hidle
  obtain ⟨s', hs', howner', -⟩ := hstep.slot_of_some htrail.slot
  refine ⟨s', hs', howner'.trans htrail.owner, fun hblocked => ?_, fun hopen => ?_⟩
  · have hbefore : b.Unfinished k' := by
      -- What was blocked before the move is blocked by the same link after it: the tracker is locked.
      refine htrail.unfinished (hblocked.imp_right ?_)
      rintro ⟨link, hlink, hopen⟩
      rw [hwaiting] at hlink
      exact ⟨link, hlink, unfinished_of_step hstep (h.isSome_of_recorded hlink) hopen⟩
    obtain ⟨s₀, hs₀, hflag⟩ := hbefore
    obtain rfl : s₀ = s := Option.some.inj (hs₀.symm.trans htrail.slot)
    refine unfinished_step h hstep hs₀ hflag fun howner hrun => ?_
    rw [htrail.owner] at howner
    rcases hblocked with hself | ⟨link, hlink, -⟩
    · exact hne (hself.symm.trans howner)
    · rw [hwaiting, howner] at hlink
      -- An owner that has recorded a link waits, so it is not at work.
      rcases h.recorded u link hlink with hs | hs | hs <;> · rw [hrun] at hs; cases hs
  · have hbefore := unfinished_of_step hstep (by simp [htrail.slot]) hopen
    exact requires_path_step h hstep hwaiting (htrail.path hbefore) hopen

/-- Trails are begun, followed from owner to owner, and not lost. -/
theorem chased_step (h : b.Coherent) (hchased : b.Chased) (hstep : b.Step u b') : b'.Chased := by
  intro t k o hstage'
  by_cases hne : t = u
  case neg =>
    have hstage : b.stage t = .wait k (.chase o) := (hstep.stage_of_ne hne).symm.trans hstage'
    obtain ⟨k', s, htrail⟩ := hchased t k o hstage
    obtain ⟨s', htrail'⟩ := trail_of_ne h hstep hne hstage htrail
    exact ⟨k', s', htrail'⟩
  subst hne
  have h' := h.step hstep
  cases hstep with
  | run hstage =>
    rw [hstage] at hstage'
    cases hstage'
  | install hstage hslot =>
    rw [hstage] at hstage'
    cases hstage'
  | @chase k₀ s hstage hslot hopen =>
    simp only [Function.update_self, Stage.wait.injEq, Phase.chase.injEq] at hstage'
    obtain ⟨rfl, rfl⟩ := hstage'
    exact ⟨k₀, s, hslot, rfl, fun _ => ⟨s, hslot, hopen⟩, fun _ => .refl⟩
  -- The owner that is passed on waits for `link`, which its construction therefore requires.
  | @follow k₀ link o' s hstage hother hlink hslot hopen =>
    simp only [Function.update_self, Stage.wait.injEq, Phase.chase.injEq] at hstage'
    obtain ⟨rfl, rfl⟩ := hstage'
    obtain ⟨k', s', htrail⟩ := hchased t k₀ o' hstage
    have hunfinished : b.Unfinished k' := htrail.unfinished (.inr ⟨link, hlink, s, hslot, hopen⟩)
    have hpath := (htrail.path hunfinished).trans
      (requires_of_recorded h htrail hunfinished hlink ⟨s, hslot, hopen⟩)
    refine ⟨link, s, hslot, rfl, fun _ => ⟨s, hslot, hopen⟩, fun _ => ?_⟩
    refine ReflTransGen.mono (fun outer inner ⟨houter, hinner, t', hruns⟩ => ?_) _ _ hpath
    refine ⟨houter, hinner, t', hruns.imp_right fun ⟨hhead, hwaiting, hblocked⟩ => ?_⟩
    -- The thread itself is on no path: it chases, and a chaser is neither asleep nor awaiting.
    have ht : t' ≠ t := by
      rintro rfl
      rcases hblocked with hblocked | hblocked <;> cases hstage.symm.trans hblocked
    exact ⟨hhead, hwaiting, by simpa [ht] using hblocked⟩
  | _ => simp at hstage'

end Board

namespace Machine

variable {I : Interface} {σ α : Type}

theorem chased_start (tasks : List (Task I α)) (shared : σ) :
    (start tasks shared : Machine I σ α).board.Chased := by
  intro t k o hchase
  rw [board_stage_start] at hchase
  cases hchase

end Machine

/-! ## What requests are made for -/

section Heeds

variable {I : Interface} {σ α : Type} (R : Goal I.Key → I.Key → Prop)

/-- Every construction on a stack was asked for by a task whose goal has a given relation to its key. -/
def Frames.Heeds : {goal : Goal I.Key} → Frames I α goal → Prop
  | _, .base => True
  | _, @Frames.enclosed _ _ goal k _ rest => R goal k ∧ rest.Heeds

/-- Whatever a thread asks for, the goal it does so for has a given relation to the key. -/
structure Thread.Heeds (thread : Thread I α) : Prop where
  frames : thread.frames.Heeds R
  waiting : ∀ k, thread.waitsFor? = some k → R thread.goal k

variable {R} {goal : Goal I.Key} {frames : Frames I α goal} {outer inner k : I.Key}

theorem Frames.goal_of_keys {ks : List I.Key} (hkeys : frames.keys = k :: ks) :
    goal = .construct k := by
  cases frames with
  | base => cases hkeys
  | enclosed k' next rest => rw [(List.cons.inj hkeys).1]

theorem Frames.relates_of_begins (hgoal : R goal k) (hbegins : [inner, outer] <+: k :: frames.keys) :
    R (.construct outer) inner := by
  obtain ⟨rfl, l, hl⟩ := List.cons_prefix_cons.mp hbegins
  obtain rfl := Frames.goal_of_keys hl.symm
  exact hgoal

theorem Frames.Heeds.relates (h : frames.Heeds R) (hpart : [inner, outer] <:+: frames.keys) :
    R (.construct outer) inner := by
  induction frames with
  | base => simp [Frames.keys] at hpart
  | enclosed k next rest ih =>
    rcases List.infix_cons_iff.mp hpart with hbegins | hrest
    · exact relates_of_begins h.1 hbegins
    · exact ih h.2 hrest

/-- The goal of a construction has that relation to whatever the construction waits for. -/
theorem Machine.relates_of_awaits {m : Machine I σ α}
    (h : ∀ (t : ThreadId) thread, m.threads[t]? = some thread → thread.Heeds R)
    (hawaits : m.board.Awaits outer inner) : R (.construct outer) inner := by
  obtain ⟨t, hpart⟩ := hawaits
  cases hthread : m.threads[t]? with
  | none => simp [Board.chain, Board.awaited, board, hthread] at hpart
  | some thread =>
    have hkeys := board_keys hthread
    have hstage := board_stage hthread
    have hheeds := h t thread hthread
    obtain ⟨goal, control, frames⟩ := thread
    cases control with
    | wait k phase next =>
      rw [Board.chain_of_wait hstage, hkeys] at hpart
      rcases List.infix_cons_iff.mp hpart with hbegins | hpart
      · exact Frames.relates_of_begins (hheeds.waiting k rfl) hbegins
      · exact hheeds.frames.relates hpart
    | run task =>
      rw [Board.chain_of_run hstage, hkeys] at hpart
      exact hheeds.frames.relates hpart
    | leave k result next =>
      rw [Board.chain_of_leave hstage, hkeys] at hpart
      exact hheeds.frames.relates hpart
    | publish ending =>
      rw [Board.chain_of_publish hstage, hkeys] at hpart
      exact hheeds.frames.relates hpart

end Heeds

end ShaderLowering.Construction
