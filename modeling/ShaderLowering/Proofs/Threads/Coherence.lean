import ShaderLowering.Proofs.Threads.Board

/-!
# What holds of every board

`Coherent` ties the parts of a board together: the slots of a thread's constructions are its own and
open, every slot is on the stack of its owner or settled, the lock is held by the thread that chases
a chain of waits, and only a thread that waits, or has just stopped waiting, is recorded.
-/

namespace ShaderLowering.Construction

variable {κ : Type}

/-- The stage of a thread that holds the lock. -/
def Stage.Chasing (stage : Stage κ) : Prop :=
  ∃ k, stage = .wait k .check ∨ ∃ o, stage = .wait k (.chase o)

@[simp]
theorem Stage.not_chasing_run : ¬(run : Stage κ).Chasing := by
  rintro ⟨k, hstage | ⟨o, hstage⟩⟩ <;> cases hstage

@[simp]
theorem Stage.not_chasing_leave (k : κ) : ¬(leave k).Chasing := by
  rintro ⟨k', hstage | ⟨o, hstage⟩⟩ <;> cases hstage

@[simp]
theorem Stage.not_chasing_publish : ¬(publish : Stage κ).Chasing := by
  rintro ⟨k, hstage | ⟨o, hstage⟩⟩ <;> cases hstage

@[simp]
theorem Stage.chasing_wait (k : κ) (phase : Phase) :
    (wait k phase).Chasing ↔ phase = .check ∨ ∃ o, phase = .chase o := by
  constructor
  · rintro ⟨k', hstage | ⟨o, hstage⟩⟩ <;> obtain ⟨-, rfl⟩ := wait.inj hstage
    · exact .inl rfl
    · exact .inr ⟨o, rfl⟩
  · rintro (rfl | ⟨o, rfl⟩)
    · exact ⟨k, .inl rfl⟩
    · exact ⟨k, .inr ⟨o, rfl⟩⟩

namespace Board

/-- The parts of a board agree with each other. -/
structure Coherent (b : Board κ) : Prop where
  nodup : ∀ t, (b.keys t).Nodup
  stacked : ∀ t k, k ∈ b.keys t → ∃ s, b.slot k = some s ∧ s.owner = t ∧ s.building = true ∧
    (s.finished = true ↔ b.stage t = .publish ∧ (b.keys t).head? = some k)
  built : ∀ k s, b.slot k = some s → k ∈ b.keys s.owner ∨ s.building = false ∧ s.finished = true
  locked : ∀ t, b.lock = some t ↔ Stage.Chasing (b.stage t)
  recorded : ∀ t k, b.waiting t = some k →
    b.stage t = .wait k .await ∨ b.stage t = .wait k .asleep ∨ b.stage t = .leave k
  left : ∀ t k, b.stage t = .leave k → b.Settled k
  known : ∀ t k phase, b.stage t = .wait k phase → (b.slot k).isSome

namespace Coherent

variable {b b' : Board κ} {t u : ThreadId} {k : κ} {ks : List κ}

theorem stage_of_update {stage stage' : Stage κ}
    (hstage : Function.update b.stage t stage u = stage') (hne : stage ≠ stage') : b.stage u = stage' := by
  by_cases hu : u = t
  · subst hu
    exact absurd ((Function.update_self ..).symm.trans hstage) hne
  · exact (Function.update_of_ne hu ..).symm.trans hstage

/-- A thread takes up another stage, with the lock and its record as the new stage wants them.  It is not
about to publish, nor was it, so the slots agree with the stages as before. -/
theorem restage (h : b.Coherent) {stage : Stage κ} {waiting : ThreadId → Option κ}
    {lock : Option ThreadId} (hbefore : b.stage t ≠ .publish) (hafter : stage ≠ .publish)
    (hlocked : lock = some t ↔ stage.Chasing) (hlock : ∀ u, u ≠ t → (lock = some u ↔ b.lock = some u))
    (hrecorded : ∀ k, waiting t = some k →
      stage = .wait k .await ∨ stage = .wait k .asleep ∨ stage = .leave k)
    (hwaiting : ∀ u, u ≠ t → waiting u = b.waiting u) (hleft : ∀ k, stage = .leave k → b.Settled k)
    (hknown : ∀ k phase, stage = .wait k phase → (b.slot k).isSome) :
    ({ b with stage := Function.update b.stage t stage, waiting, lock } : Board κ).Coherent := by
  have hself : Function.update b.stage t stage t = stage := Function.update_self ..
  have hother : ∀ {u}, u ≠ t → Function.update b.stage t stage u = b.stage u := fun hu =>
    Function.update_of_ne hu ..
  constructor
  case nodup => exact h.nodup
  case built => exact h.built
  case stacked =>
    intro u k' hk'
    obtain ⟨s, hs, howner, hopen, hflag⟩ := h.stacked u k' hk'
    refine ⟨s, hs, howner, hopen, ?_⟩
    by_cases hu : u = t
    · subst hu
      simpa [hself, hafter, hbefore] using hflag
    · simpa [hother hu] using hflag
  case locked =>
    intro u
    dsimp only
    by_cases hu : u = t
    · subst hu
      rw [hself, hlocked]
    · rw [hother hu, hlock u hu, h.locked]
  case recorded =>
    intro u k' hk'
    dsimp only
    by_cases hu : u = t
    · subst hu
      rw [hself]
      exact hrecorded k' hk'
    · rw [hother hu]
      exact h.recorded u k' ((hwaiting u hu).symm.trans hk')
  case left =>
    intro u k' hk'
    by_cases hu : u = t
    · subst hu
      exact hleft k' (hself.symm.trans hk')
    · exact h.left u k' ((hother hu).symm.trans hk')
  case known =>
    intro u k' phase hk'
    by_cases hu : u = t
    · subst hu
      exact hknown k' phase (hself.symm.trans hk')
    · exact h.known u k' phase ((hother hu).symm.trans hk')

/-- A thread takes up another stage and leaves the lock as it is. -/
theorem goOn (h : b.Coherent) {stage : Stage κ} {waiting : ThreadId → Option κ}
    (hbefore : b.stage t ≠ .publish) (hafter : stage ≠ .publish)
    (hchasing : (b.stage t).Chasing ↔ stage.Chasing)
    (hrecorded : ∀ k, waiting t = some k →
      stage = .wait k .await ∨ stage = .wait k .asleep ∨ stage = .leave k)
    (hwaiting : ∀ u, u ≠ t → waiting u = b.waiting u) (hleft : ∀ k, stage = .leave k → b.Settled k)
    (hknown : ∀ k phase, stage = .wait k phase → (b.slot k).isSome) :
    ({ b with stage := Function.update b.stage t stage, waiting } : Board κ).Coherent :=
  h.restage hbefore hafter ((h.locked t).trans hchasing) (fun _ _ => .rfl) hrecorded hwaiting hleft hknown

/-- A thread goes on waiting for the same slot. -/
theorem waitOn (h : b.Coherent) {phase phase' : Phase} (hstage : b.stage t = .wait k phase)
    (hchasing : (phase = .check ∨ ∃ o, phase = .chase o) ↔ phase' = .check ∨ ∃ o, phase' = .chase o)
    (hrests : phase = .await ∨ phase = .asleep → phase' = .await ∨ phase' = .asleep) :
    ({ b with stage := Function.update b.stage t (.wait k phase') } : Board κ).Coherent := by
  refine h.goOn (by simp [hstage]) nofun (by simpa [hstage] using hchasing) (fun k' hk' => ?_)
    (fun _ _ => rfl) nofun fun k' phase'' heq => ?_
  · rcases h.recorded t k' hk' with hbefore | hbefore | hbefore
    · obtain ⟨rfl, hphase⟩ := Stage.wait.inj (hstage.symm.trans hbefore)
      simpa using hrests (.inl hphase)
    · obtain ⟨rfl, hphase⟩ := Stage.wait.inj (hstage.symm.trans hbefore)
      simpa using hrests (.inr hphase)
    · cases hstage.symm.trans hbefore
  · cases heq
    exact h.known t k phase hstage

/-- A thread that follows a chain of waits takes up another stage and gives the lock back. -/
theorem unlock (h : b.Coherent) {stage : Stage κ} {waiting : ThreadId → Option κ}
    (hbefore : (b.stage t).Chasing) (hafter : ¬stage.Chasing) (hpublish : stage ≠ .publish)
    (hrecorded : ∀ k, waiting t = some k →
      stage = .wait k .await ∨ stage = .wait k .asleep ∨ stage = .leave k)
    (hwaiting : ∀ u, u ≠ t → waiting u = b.waiting u) (hleft : ∀ k, stage = .leave k → b.Settled k)
    (hknown : ∀ k phase, stage = .wait k phase → (b.slot k).isSome) :
    ({ b with stage := Function.update b.stage t stage, waiting, lock := none } : Board κ).Coherent := by
  have hheld : b.lock = some t := (h.locked t).mpr hbefore
  refine h.restage ?_ hpublish (by simpa using hafter) (fun u hu => ?_) hrecorded hwaiting hleft hknown
  · intro hstage
    simp [hstage] at hbefore
  · simp [hheld, Ne.symm hu]

/-- A key is on one stack at most. -/
theorem eq_of_mem_keys (h : b.Coherent) (hk : k ∈ b.keys t) (hk' : k ∈ b.keys u) :
    u = t := by
  obtain ⟨s, hs, howner, -⟩ := h.stacked t k hk
  obtain ⟨s', hs', howner', -⟩ := h.stacked u k hk'
  obtain rfl := Option.some.inj (hs.symm.trans hs')
  exact howner'.symm.trans howner

/-- Only one thread at a time follows a chain of waits. -/
theorem eq_of_chasing (h : b.Coherent) (ht : (b.stage t).Chasing) (hu : (b.stage u).Chasing) : u = t := by
  have hlock := (h.locked t).mpr ht
  rw [(h.locked u).mpr hu] at hlock
  exact Option.some.inj hlock

/-- A thread that follows no chain of waits, before or after, leaves the lock to who has it. -/
theorem locked_of_idle (h : b.Coherent) {stage : Stage κ} (hbefore : ¬(b.stage t).Chasing)
    (hafter : ¬stage.Chasing) : b.lock = some u ↔ (Function.update b.stage t stage u).Chasing := by
  rw [h.locked]
  by_cases hu : u = t
  · subst hu
    simp [hbefore, hafter]
  · rw [Function.update_of_ne hu]

variable [DecidableEq κ]

/-- A construction is begun in a slot that was free. -/
theorem install (h : b.Coherent) (hstage : b.stage t = .run) (hslot : b.slot k = none) :
    ({ b with
      keys := Function.update b.keys t (k :: b.keys t)
      slot := Function.update b.slot k (some ⟨t, false, true⟩) } : Board κ).Coherent := by
  -- The new key is on no stack, since a key on a stack has a slot.
  have hnew : ∀ u, k ∉ b.keys u := by
    intro u hk
    obtain ⟨s, hs, -⟩ := h.stacked u k hk
    rw [hslot] at hs
    cases hs
  have hkept : ∀ {k' s}, b.slot k' = some s →
      Function.update b.slot k (some ⟨t, false, true⟩) k' = some s := by
    intro k' s hs
    have hk : k' ≠ k := fun hk => by
      rw [hk, hslot] at hs
      cases hs
    rw [Function.update_of_ne hk, hs]
  constructor
  case nodup =>
    intro u
    by_cases hu : u = t
    · subst hu
      simp [h.nodup u, hnew u]
    · simp [hu, h.nodup u]
  case stacked =>
    intro u k' hk'
    by_cases hk : k' = k
    · subst hk
      obtain rfl : u = t := by
        by_contra hu
        exact hnew u (by simpa [hu] using hk')
      exact ⟨⟨u, false, true⟩, by simp, rfl, rfl, by simp [hstage]⟩
    · have hold : k' ∈ b.keys u := by
        by_cases hu : u = t
        · subst hu
          simpa [hk] using hk'
        · simpa [hu] using hk'
      obtain ⟨s, hs, howner, hopen, hflag⟩ := h.stacked u k' hold
      refine ⟨s, hkept hs, howner, hopen, ?_⟩
      by_cases hu : u = t
      · subst hu
        simpa [hstage] using hflag
      · simpa [hu] using hflag
  case built =>
    intro k' s hs
    dsimp only at hs ⊢
    by_cases hk : k' = k
    · subst hk
      rw [Function.update_self] at hs
      obtain rfl := Option.some.inj hs
      exact .inl (by simp)
    · rw [Function.update_of_ne hk] at hs
      refine (h.built k' s hs).imp_left fun hmem => ?_
      by_cases hu : s.owner = t
      · simp [hu, hu ▸ hmem]
      · simpa [hu] using hmem
  case locked => exact h.locked
  case recorded => exact h.recorded
  case left =>
    intro u k' hk'
    obtain ⟨s, hs, hclosed⟩ := h.left u k' hk'
    exact ⟨s, hkept hs, hclosed⟩
  case known =>
    intro u k' phase hk'
    obtain ⟨s, hs⟩ := Option.isSome_iff_exists.mp (h.known u k' phase hk')
    exact Option.isSome_iff_exists.mpr ⟨s, hkept hs⟩

/-- The flag of the innermost construction of a thread is raised, which is now about to publish. -/
theorem finish (h : b.Coherent) (hstage : b.stage t = .run) (hkeys : b.keys t = k :: ks) :
    ({ b with
      stage := Function.update b.stage t .publish
      slot := Function.update b.slot k ((b.slot k).map fun s => { s with finished := true }) } :
        Board κ).Coherent := by
  have hmem : k ∈ b.keys t := by simp [hkeys]
  obtain ⟨s, hs, howner, hopen, -⟩ := h.stacked t k hmem
  rw [hs, Option.map_some]
  constructor
  case nodup => exact h.nodup
  case stacked =>
    intro u k' hk'
    dsimp only
    by_cases hk : k' = k
    · subst hk
      obtain rfl := h.eq_of_mem_keys hmem hk'
      exact ⟨_, Function.update_self .., howner, hopen, by simp [hkeys]⟩
    · obtain ⟨s', hs', howner', hopen', hflag⟩ := h.stacked u k' hk'
      refine ⟨s', (Function.update_of_ne hk ..).trans hs', howner', hopen', ?_⟩
      by_cases hu : u = t
      · subst hu
        simpa [hstage, hkeys, Ne.symm hk] using hflag
      · simpa [hu] using hflag
  case built =>
    intro k' s' hs'
    dsimp only at hs' ⊢
    by_cases hk : k' = k
    · subst hk
      rw [Function.update_self] at hs'
      obtain rfl := Option.some.inj hs'
      exact .inl (by rwa [howner])
    · rw [Function.update_of_ne hk] at hs'
      exact h.built k' s' hs'
  case locked => exact fun u => h.locked_of_idle (by simp [hstage]) (by simp)
  case recorded =>
    intro u k' hk'
    have hbefore := h.recorded u k' hk'
    by_cases hu : u = t
    · subst hu
      simp [hstage] at hbefore
    · simpa [hu] using hbefore
  case left =>
    intro u k' hk'
    obtain ⟨s', hs', hclosed⟩ := h.left u k' (stage_of_update hk' nofun)
    -- A slot that is settled is not the one whose flag is raised.
    have hk : k' ≠ k := by
      rintro rfl
      obtain rfl := Option.some.inj (hs.symm.trans hs')
      rw [hopen] at hclosed
      cases hclosed
    exact ⟨s', (Function.update_of_ne hk ..).trans hs', hclosed⟩
  case known =>
    intro u k' phase hk'
    have hslot := h.known u k' phase (stage_of_update hk' nofun)
    by_cases hk : k' = k
    · simp [hk]
    · simpa [hk] using hslot

/-- A slot is settled, and its key leaves the stack. -/
theorem settle (h : b.Coherent) (hstage : b.stage t = .publish) (hkeys : b.keys t = k :: ks) :
    ({ b with
      keys := Function.update b.keys t ks
      stage := Function.update b.stage t .run
      slot := Function.update b.slot k ((b.slot k).map fun s => { s with building := false }) } :
        Board κ).Coherent := by
  have hmem : k ∈ b.keys t := by simp [hkeys]
  obtain ⟨s, hs, howner, hopen, hflag⟩ := h.stacked t k hmem
  obtain ⟨hout, hrest⟩ := List.nodup_cons.mp (hkeys ▸ h.nodup t)
  rw [hs, Option.map_some]
  constructor
  case nodup =>
    intro u
    by_cases hu : u = t
    · simpa [hu] using hrest
    · simpa [hu] using h.nodup u
  case stacked =>
    intro u k' hk'
    dsimp only at hk' ⊢
    have hold : k' ∈ b.keys u := by
      by_cases hu : u = t
      · subst hu
        rw [Function.update_self] at hk'
        simp [hkeys, hk']
      · rwa [Function.update_of_ne hu] at hk'
    -- A key is on one stack and once, so what is left on the stacks has not been settled.
    have hk : k' ≠ k := by
      rintro rfl
      obtain rfl := h.eq_of_mem_keys hmem hold
      rw [Function.update_self] at hk'
      exact hout hk'
    obtain ⟨s', hs', howner', hopen', hflag'⟩ := h.stacked u k' hold
    refine ⟨s', (Function.update_of_ne hk ..).trans hs', howner', hopen', ?_⟩
    by_cases hu : u = t
    · subst hu
      simpa [hstage, hkeys, Ne.symm hk] using hflag'
    · simpa [hu] using hflag'
  case built =>
    intro k' s' hs'
    dsimp only at hs' ⊢
    by_cases hk : k' = k
    · subst hk
      rw [Function.update_self] at hs'
      obtain rfl := Option.some.inj hs'
      exact .inr ⟨rfl, hflag.mpr ⟨hstage, by simp [hkeys]⟩⟩
    · rw [Function.update_of_ne hk] at hs'
      refine (h.built k' s' hs').imp_left fun hold => ?_
      by_cases hu : s'.owner = t
      · rw [hu, hkeys] at hold
        simpa [hu, hk] using hold
      · simpa [hu] using hold
  case locked => exact fun u => h.locked_of_idle (by simp [hstage]) (by simp)
  case recorded =>
    intro u k' hk'
    have hbefore := h.recorded u k' hk'
    by_cases hu : u = t
    · subst hu
      simp [hstage] at hbefore
    · simpa [hu] using hbefore
  case left =>
    intro u k' hk'
    obtain ⟨s', hs', hclosed⟩ := h.left u k' (stage_of_update hk' nofun)
    by_cases hk : k' = k
    · exact ⟨_, by rw [hk]; exact Function.update_self .., rfl⟩
    · exact ⟨s', (Function.update_of_ne hk ..).trans hs', hclosed⟩
  case known =>
    intro u k' phase hk'
    have hslot := h.known u k' phase (stage_of_update hk' nofun)
    by_cases hk : k' = k
    · simp [hk]
    · simpa [hk] using hslot

/-- Every move of a board keeps its parts in agreement. -/
theorem step (h : b.Coherent) (hstep : b.Step t b') : b'.Coherent := by
  cases hstep with
  | run => exact h
  | install hstage hslot => exact h.install hstage hslot
  | finish hstage hkeys => exact h.finish hstage hkeys
  | settle hstage hkeys => exact h.settle hstage hkeys
  | request hstage hslot =>
    refine h.goOn (by simp [hstage]) nofun (by simp [hstage]) (fun k' hk' => ?_) (fun _ _ => rfl) nofun
      fun k' phase heq => ?_
    · simpa [hstage] using h.recorded t k' hk'
    · cases heq
      exact hslot
  | answer hstage =>
    refine h.goOn (by simp [hstage]) nofun (by simp [hstage]) (fun k' hk' => ?_) (fun _ _ => rfl) nofun
      nofun
    simpa [hstage] using h.recorded t k' hk'
  | queue hstage => exact h.waitOn hstage (by simp) (by simp)
  | enter hstage hlock =>
    refine h.restage (by simp [hstage]) nofun (by simp) (fun u hu => by simp [hlock, Ne.symm hu])
      (fun k' hk' => ?_) (fun _ _ => rfl) nofun fun k' phase heq => ?_
    · simpa [hstage] using h.recorded t k' hk'
    · cases heq
      exact h.known t _ _ hstage
  | skip hstage =>
    refine h.unlock (by simp [hstage]) (by simp) nofun (fun k' hk' => ?_) (fun _ _ => rfl) nofun
      fun k' phase heq => ?_
    · simpa [hstage] using h.recorded t k' hk'
    · cases heq
      exact h.known t _ _ hstage
  | chase hstage => exact h.waitOn hstage (by simp) (by simp)
  | refuse hstage =>
    refine h.unlock (by simp [hstage]) (by simp) nofun (fun k' hk' => ?_) (fun _ _ => rfl) nofun nofun
    simpa [hstage] using h.recorded t k' hk'
  | commit hstage =>
    refine h.unlock (by simp [hstage]) (by simp) nofun (fun k' hk' => ?_)
      (fun u hu => Function.update_of_ne hu ..) nofun fun k' phase heq => ?_
    · rw [Function.update_self] at hk'
      obtain rfl := Option.some.inj hk'
      exact .inl rfl
    · cases heq
      exact h.known t _ _ hstage
  | follow hstage => exact h.waitOn hstage (by simp) (by simp)
  | wake hstage hset =>
    refine h.goOn (by simp [hstage]) nofun (by simp [hstage]) (fun k' hk' => ?_) (fun _ _ => rfl)
      (fun k' heq => ?_) nofun
    · simpa [hstage] using h.recorded t k' hk'
    · cases heq
      exact hset
  | doze hstage => exact h.waitOn hstage (by simp) (by simp)
  | stir hstage => exact h.waitOn hstage (by simp) (by simp)
  | leave hstage =>
    refine h.goOn (by simp [hstage]) nofun (by simp [hstage]) (fun k' hk' => ?_)
      (fun u hu => Function.update_of_ne hu ..) nofun nofun
    rw [Function.update_self] at hk'
    cases hk'

end Coherent

end Board

/-! ## The board at the start -/

namespace Machine

variable {I : Interface} {σ α : Type} (tasks : List (Task I α)) (shared : σ)

theorem board_keys_start (t : ThreadId) :
    (start tasks shared : Machine I σ α).board.keys t = [] := by
  cases htask : tasks[t]? with
  | none => simp [board, start, htask]
  | some task => simp [board, start, htask, Thread.start, Thread.keys, Frames.keys]

theorem board_stage_start (t : ThreadId) :
    (start tasks shared : Machine I σ α).board.stage t = .run := by
  cases htask : tasks[t]? with
  | none => simp [board, start, htask]
  | some task => simp [board, start, htask, Thread.start, Thread.stage]

theorem coherent_start : (start tasks shared : Machine I σ α).board.Coherent := by
  have hkeys := board_keys_start tasks shared
  have hstage := board_stage_start tasks shared
  refine ⟨?_, ?_, nofun, ?_, nofun, ?_, ?_⟩
  · intro t
    rw [hkeys]
    exact List.nodup_nil
  · intro t k hk
    rw [hkeys] at hk
    cases hk
  · intro t
    rw [hstage]
    exact ⟨nofun, nofun⟩
  · intro t k hleave
    rw [hstage] at hleave
    cases hleave
  · intro t k phase hwait
    rw [hstage] at hwait
    cases hwait

end Machine

end ShaderLowering.Construction
