import Mathlib.Algebra.Group.Action.Defs
import Mathlib.Algebra.Order.BigOperators.Group.Finset
import ShaderLowering.Proofs.Threads.Stops

/-!
# A ring breaks in one place

In a ring of threads that are all inside their factories, each constructing its own key, every thread
asks for the key of the next one.  Whatever the order in which they take their steps, exactly one of
them is refused with a cycle, all others are told that the next construction has failed, and no thread
waits for ever (`ring_breaks`).

That a thread is refused means that the chain of waits has led all the way round to it, so that all the
others are asleep or about to be, and can no longer be refused (`Turning.past_of_refused`).  That
nobody waits for ever is a matter of counting the moves that the threads have before them
(`Turning.toGo_lt`).
-/

namespace ShaderLowering.Construction

open Relation (ReflTransGen)

/-! ## Fair schedules -/

namespace Machine

variable {I : Interface} {σ α : Type} {recipes : Recipes I σ}

theorem follow_append (m : Machine I σ α) (schedule later : List ThreadId) :
    m.follow recipes (schedule ++ later) = (m.follow recipes schedule).follow recipes later := by
  induction schedule generalizing m with
  | nil => rfl
  | cons t schedule ih => rw [List.cons_append, follow, follow, ih]

theorem log_append (m : Machine I σ α) (schedule later : List ThreadId) :
    m.log recipes (schedule ++ later) =
      m.log recipes schedule ++ (m.follow recipes schedule).log recipes later := by
  induction schedule generalizing m with
  | nil => rfl
  | cons t schedule ih =>
    rw [List.cons_append, follow, log, log]
    cases m.step recipes t with
    | none => exact ih m
    | some m' => exact (congrArg _ (ih m')).trans (List.append_assoc ..).symm

/-- How many steps threads take under a schedule; a thread that cannot take one is passed over. -/
def taken (recipes : Recipes I σ) (m : Machine I σ α) : List ThreadId → Nat
  | [] => 0
  | t :: schedule =>
    match m.step recipes t with
    | some m' => m'.taken recipes schedule + 1
    | none => m.taken recipes schedule

/-- A measure that every step lowers bounds the number of steps. -/
theorem taken_le {P : Nat → Machine I σ α → Prop}
    (hstep : ∀ c m t m', P c m → m.step recipes t = some m' → ∃ c' < c, P c' m') {c : Nat}
    {m : Machine I σ α} (hm : P c m) (schedule : List ThreadId) : m.taken recipes schedule ≤ c := by
  induction schedule generalizing c m with
  | nil => exact Nat.zero_le c
  | cons t schedule ih =>
    rw [taken]
    split
    · next m' hnext =>
      obtain ⟨c', hlt, hm'⟩ := hstep c m t m' hm hnext
      exact (Nat.succ_le_succ (ih hm')).trans hlt
    · exact ih hm

/-- A measure that every step lowers is lowered by every schedule in which a thread has its turn that can
take a step. -/
theorem exists_lt_of_follow {P : Nat → Machine I σ α → Prop}
    (hstep : ∀ c m t m', P c m → m.step recipes t = some m' → ∃ c' < c, P c' m') {c : Nat}
    {m : Machine I σ α} (hm : P c m) {t : ThreadId} (hsome : (m.step recipes t).isSome)
    {schedule : List ThreadId} (hturn : t ∈ schedule) :
    ∃ c' < c, P c' (m.follow recipes schedule) := by
  have hkeep : ∀ schedule c m, P c m → ∃ c' ≤ c, P c' (m.follow recipes schedule) := by
    intro schedule
    induction schedule with
    | nil => exact fun c m hm => ⟨c, Nat.le_refl c, hm⟩
    | cons u schedule ih =>
      intro c m hm
      rw [follow]
      cases hnext : m.step recipes u with
      | none => exact ih c m hm
      | some m' =>
        obtain ⟨c', hlt, hm'⟩ := hstep c m u m' hm hnext
        obtain ⟨c'', hle, hm''⟩ := ih c' m' hm'
        exact ⟨c'', hle.trans hlt.le, hm''⟩
  induction schedule with
  | nil => cases hturn
  | cons u schedule ih =>
    rw [follow]
    cases hnext : m.step recipes u with
    | none =>
      have hne : t ≠ u := by
        rintro rfl
        rw [hnext] at hsome
        cases hsome
      exact ih ((List.mem_cons.mp hturn).resolve_left hne)
    | some m' =>
      obtain ⟨c', hlt, hm'⟩ := hstep c m u m' hm hnext
      obtain ⟨c'', hle, hm''⟩ := hkeep schedule c' m' hm'
      exact ⟨c'', hle.trans_lt hlt, hm''⟩

/-- Under a schedule in which each of `n` threads has its turn again and again, a machine comes to its end
if every step lowers a measure and one of these threads can always go on. -/
theorem isOver_of_fair {P : Nat → Machine I σ α → Prop}
    (hstep : ∀ c m t m', P c m → m.step recipes t = some m' → ∃ c' < c, P c' m') {n : Nat}
    (hprogress : ∀ c m, P c m → m.isOver = false → ∃ t < n, (m.step recipes t).isSome)
    {turns : Nat → ThreadId} (hfair : ∀ t < n, ∀ i, ∃ j ≥ i, turns j = t) {c : Nat}
    {m : Machine I σ α} (hm : P c m) :
    ∃ steps, (m.follow recipes ((List.range steps).map turns)).isOver = true := by
  -- From any moment on, by induction on what is still to be done then.
  suffices hlater : ∀ c i, P c (m.follow recipes ((List.range i).map turns)) →
      ∃ steps, (m.follow recipes ((List.range steps).map turns)).isOver = true from hlater c 0 hm
  intro c
  induction c using Nat.strong_induction_on with
  | _ c ih =>
    intro i hi
    cases hover : (m.follow recipes ((List.range i).map turns)).isOver with
    | true => exact ⟨i, hover⟩
    | false =>
      obtain ⟨t, ht, hsome⟩ := hprogress c _ hi hover
      obtain ⟨j, hj, hturn⟩ := hfair t ht i
      obtain ⟨d, rfl⟩ := Nat.exists_eq_add_of_le hj
      have hsplit : (List.range (i + (d + 1))).map turns =
          (List.range i).map turns ++ ((List.range (d + 1)).map (i + ·)).map turns := by
        rw [List.range_add, List.map_append]
      have hmem : t ∈ ((List.range (d + 1)).map (i + ·)).map turns :=
        List.mem_map.mpr ⟨i + d, List.mem_map.mpr ⟨d, List.self_mem_range_succ, rfl⟩, hturn⟩
      obtain ⟨c', hlt, hm'⟩ := exists_lt_of_follow hstep hi hsome hmem
      rw [← follow_append, ← hsplit] at hm'
      exact ih c' hlt (i + (d + 1)) hm'

end Machine

namespace Race

variable {n : Nat} {stop : Nat → Stop} {log log' : List (Event race)} {m m' : Machine race Nat UInt32}
  {t u : ThreadId}

theorem next_lt (ht : t < n) : next n t < n :=
  Nat.mod_lt _ (Nat.zero_lt_of_lt ht)

/-- A walk along the ring that comes back to where it has set out has passed all the others. -/
theorem exists_link_of_around {t u links : Nat} (ht : t < n) (hu : u < n) (hne : u ≠ t)
    (hback : t = (next n t + links) % n) : ∃ i < links, (next n t + i) % n = u := by
  rw [next, Nat.mod_add_mod] at hback
  have hfar : n ≤ links + 1 := by
    by_contra hnear
    rcases Nat.lt_or_ge (t + 1 + links) n with hlt | hge
    · rw [Nat.mod_eq_of_lt hlt] at hback
      omega
    · rw [Nat.mod_eq_sub_mod hge, Nat.mod_eq_of_lt (by omega)] at hback
      omega
  rcases Nat.lt_or_gt_of_ne hne with hbelow | habove
  · refine ⟨u + n - (t + 1), by omega, ?_⟩
    rw [next, Nat.mod_add_mod, show t + 1 + (u + n - (t + 1)) = u + n by omega, Nat.add_mod_right,
      Nat.mod_eq_of_lt hu]
  · refine ⟨u - (t + 1), by omega, ?_⟩
    rw [next, Nat.mod_add_mod, show t + 1 + (u - (t + 1)) = u by omega, Nat.mod_eq_of_lt hu]

/-! ## A ring under way -/

/-- The threads of a ring, each at a stop, with what the slots and the log say of their constructions.  If
requests have been answered, one of them has been refused, and then all other threads are past being
refused. -/
structure Turning (n : Nat) (stop : Nat → Stop) (log : List (Event race)) (m : Machine race Nat UInt32) :
    Prop where
  recorded : Recorded log m
  orderly : m.Orderly
  chased : m.board.Chased
  threads : m.threads = (List.range n).map fun i => (stop i).thread i (next n i)
  slots : ∀ k, m.world.state? k = if k < n then (stop k).slot? else none
  constructions : ∀ k, constructionsOf k log = if k < n then (stop k).constructions k (next n k) else []
  shared : m.world.shared = ∑ i ∈ Finset.range n, (stop i).begun
  asleep : ∀ i < n, stop i = .waiting .asleep → m.world.state? (next n i) ≠ some .failed →
    Stop.Rests m.world i (next n i)
  caused : ∀ i < n, (stop i).refused? ≠ none → ∃ t < n, (stop t).refused? = some true
  past : ∀ t < n, (stop t).refused? = some true → ∀ u < n, u ≠ t → (stop u).Past

namespace Stop

variable {s : Stop} {i j : Nat}

theorem stage_thread_of_chasing (h : s.Chasing) : (s.thread i j).stage.Chasing := by
  rcases h with rfl | ⟨o, rfl⟩
  · exact ⟨j, .inl rfl⟩
  · exact ⟨j, .inr ⟨o, rfl⟩⟩

/-- A thread of a ring constructs no key but its own. -/
theorem eq_of_mem_keys {k : Nat} (h : k ∈ (s.thread i j).keys) : (s.thread i j).keys = [i] := by
  cases s with
  | outside | ended => cases h
  | _ => rfl

theorem waiting_of_stage {k : Nat} {phase : Phase} (h : (s.thread i j).stage = .wait k phase) :
    s = .waiting phase ∧ k = j := by
  cases s with
  | waiting phase' =>
    obtain ⟨rfl, rfl⟩ := Stage.wait.inj h
    exact ⟨rfl, rfl⟩
  | _ => cases h

theorem slot?_eq_failed {s : Stop} (h : s.slot? = some .failed) : ∃ refused, s = .ended refused := by
  cases s with
  | ended refused => exact ⟨refused, rfl⟩
  | _ => cases h

end Stop

namespace Turning

theorem thread_eq (h : Turning n stop log m) (ht : t < n) :
    m.threads[t]? = some ((stop t).thread t (next n t)) := by
  simp [h.threads, ht]

theorem lt_of_thread (h : Turning n stop log m) {thread : Thread race UInt32}
    (hthread : m.threads[t]? = some thread) : t < n := by
  have hlt := (List.getElem?_eq_some_iff.mp hthread).1
  simpa [h.threads] using hlt

theorem stage_eq (h : Turning n stop log m) (ht : t < n) :
    m.board.stage t = ((stop t).thread t (next n t)).stage :=
  Machine.board_stage (h.thread_eq ht)

/-- The constructions that require each other are those of neighbours, and the first of them waits. -/
theorem of_requires (h : Turning n stop log m) {outer inner : Nat}
    (hrequires : m.board.Requires outer inner) :
    outer < n ∧ inner = next n outer ∧
      (stop outer = .waiting .await ∨ stop outer = .waiting .asleep) := by
  obtain ⟨-, -, u, hruns⟩ := hrequires
  -- In a ring a thread has its own construction under way or nothing.
  have hkeys : ∀ k, k ∈ m.board.keys u → u < n ∧ m.board.keys u = [u] := by
    intro k hk
    obtain ⟨thread, hthread⟩ := Machine.exists_thread_of_keys hk
    have hu := h.lt_of_thread hthread
    rw [Machine.board_keys (h.thread_eq hu)] at hk ⊢
    exact ⟨hu, Stop.eq_of_mem_keys hk⟩
  -- No construction is nested in another one, so `Requires` is between a thread and what it waits for.
  rcases hruns with hnested | ⟨hhead, -, hstage⟩
  · obtain ⟨-, hone⟩ := hkeys inner (hnested.subset (by simp))
    rw [hone] at hnested
    exact absurd hnested.length_le (by simp)
  · obtain ⟨hu, hone⟩ := hkeys outer (List.mem_of_mem_head? hhead)
    rw [hone] at hhead
    obtain rfl := Option.some.inj hhead
    rw [h.stage_eq hu] at hstage
    rcases hstage with hstage | hstage
    · obtain ⟨hstop, rfl⟩ := Stop.waiting_of_stage hstage
      exact ⟨hu, rfl, .inl hstop⟩
    · obtain ⟨hstop, rfl⟩ := Stop.waiting_of_stage hstage
      exact ⟨hu, rfl, .inr hstop⟩

/-- A chain of waits runs along the ring. -/
theorem of_requires_path (h : Turning n stop log m) {first last : Nat} (hfirst : first < n)
    (hpath : ReflTransGen m.board.Requires first last) :
    ∃ links, last = (first + links) % n ∧ ∀ i < links, (stop ((first + i) % n)).Past := by
  induction hpath with
  | refl => exact ⟨0, (Nat.mod_eq_of_lt hfirst).symm, nofun⟩
  | tail _ hedge ih =>
    obtain ⟨links, rfl, hpast⟩ := ih
    obtain ⟨-, hinner, hwaits⟩ := h.of_requires hedge
    refine ⟨links + 1, ?_, fun i hi => ?_⟩
    · rw [hinner, next, Nat.mod_add_mod, Nat.add_assoc]
    · rcases Nat.lt_succ_iff_lt_or_eq.mp hi with hi | rfl
      · exact hpast i hi
      · exact hwaits.elim .inl fun hasleep => .inr (.inl hasleep)

/-- When a thread is about to be refused, all others are past being refused. -/
theorem past_of_refused (h : Turning n stop log m) (ht : t < n) (hstop : stop t = .waiting (.chase t))
    (hu : u < n) (hne : u ≠ t) : (stop u).Past := by
  have hstage : m.board.stage t = .wait (next n t) (.chase t) := by
    rw [h.stage_eq ht, hstop]
    rfl
  obtain ⟨-, outer, hhead, hpath⟩ := Board.requires_of_refused h.recorded.coherent h.chased hstage
  have houter : outer = t := by
    rw [Machine.board_keys (h.thread_eq ht), hstop] at hhead
    exact (Option.some.inj hhead).symm
  obtain ⟨links, hlast, hpast⟩ := h.of_requires_path (next_lt ht) hpath
  rw [houter] at hlast
  obtain ⟨i, hi, rfl⟩ := exists_link_of_around ht hu hne hlast
  exact hpast i hi

/-- A thread has come to another stop. -/
theorem threads_set (h : Turning n stop log m) (ht : t < n) (s : Stop) :
    m.threads.set t (s.thread t (next n t)) =
      (List.range n).map fun i => (Function.update stop t s i).thread i (next n i) := by
  refine List.ext_getElem? fun i => ?_
  by_cases hi : i = t
  · subst hi
    rw [List.getElem?_set_self (by simpa [h.threads] using ht)]
    simp [ht]
  · rw [List.getElem?_set_ne (Ne.symm hi), h.threads]
    rcases Nat.lt_or_ge i n with hlt | hge
    · simp [hlt, Function.update_of_ne hi]
    · simp [hge]

/-- What a thread of a ring does is a move of the thread. -/
theorem move_of_step (h : Turning n stop log m) (hin : stop t = .asking → stop (next n t) ≠ .outside)
    (hstep : m.step recipes t = some m') :
    t < n ∧ ∃ s, Stop.Move m.world t (next n t) (stop t) (m.event? t) s m'.world ∧
      m'.threads = (List.range n).map fun i => (Function.update stop t s i).thread i (next n i) := by
  obtain ⟨thread, thread', w, hthread, hnext, rfl⟩ := Machine.step_eq_some hstep
  have ht := h.lt_of_thread hthread
  have hslot : m.world.state? (next n t) = (stop (next n t)).slot? := by
    rw [h.slots, if_pos (next_lt ht)]
  obtain rfl := Option.some.inj (hthread.symm.trans (h.thread_eq ht))
  obtain ⟨s, rfl, hmove⟩ := Stop.move_of_step
    (fun houtside => by
      have hnone := h.slots t
      rw [if_pos ht, houtside] at hnone
      exact Option.map_eq_none_iff.mp hnone)
    (fun hasking => by
      have htaken : (m.world.state? (next n t)).isSome := by
        rw [hslot]
        cases hstop : stop (next n t) with
        | outside => exact absurd hstop (hin hasking)
        | _ => rfl
      exact Option.isSome_map.symm.trans htaken)
    (fun v => by rw [hslot]; cases stop (next n t) <;> nofun)
    (fun hasleep hopen cell hcell => by
      obtain ⟨cell', hcell', hmem⟩ := h.asleep t ht hasleep hopen
      rwa [Option.some.inj (hcell.symm.trans hcell')])
    hnext
  have hevent : m.event? t = ((stop t).thread t (next n t)).control.event? t m.world := by
    rw [Machine.event?, hthread, Option.bind_some]
  exact ⟨ht, s, by rwa [hevent], h.threads_set ht s⟩

/-- Every move keeps the ring turning. -/
theorem step (h : Turning n stop log m) (hin : stop t = .asking → stop (next n t) ≠ .outside)
    (hstep : m.step recipes t = some m') :
    t < n ∧ ∃ s, Stop.Move m.world t (next n t) (stop t) (m.event? t) s m'.world ∧
      Turning n (Function.update stop t s) (log ++ (m.event? t).toList) m' := by
  obtain ⟨ht, s, hmove, hthreads⟩ := h.move_of_step hin hstep
  have hboard := Machine.board_step hstep
  have hown : m.world.state? t = (stop t).slot? := by rw [h.slots, if_pos ht]
  have hupdate : ∀ {i}, i ≠ t → Function.update stop t s i = stop i := fun hi =>
    Function.update_of_ne hi ..
  -- A request that has been refused stays so.
  have hrefused : ∀ {i}, (stop i).refused? = some true →
      (Function.update stop t s i).refused? = some true := by
    intro i hi
    by_cases hit : i = t
    · subst hit
      rw [Function.update_self]
      exact hmove.refused?_of_some hi
    · rwa [hupdate hit]
  refine ⟨ht, s, hmove, ?_⟩
  constructor
  case recorded => exact h.recorded.step hstep
  case orderly => exact h.orderly.step hstep
  case chased => exact Board.chased_step h.recorded.coherent h.chased hboard
  case threads => exact hthreads
  case slots =>
    intro k
    rw [hmove.state?_eq hown, h.slots]
    by_cases hk : k = t
    · subst hk
      rw [if_pos rfl, if_pos ht, Function.update_self]
    · rw [if_neg hk, hupdate hk]
  case constructions =>
    intro k
    rw [constructionsOf_append, h.constructions]
    by_cases hk : k = t
    · subst hk
      rw [if_pos ht, if_pos ht, Function.update_self, hmove.constructions_eq]
    · rw [hmove.constructionsOf_of_ne hk, List.append_nil, hupdate hk]
  case shared =>
    have hadd := hmove.shared_add
    have hrest : ∑ i ∈ (Finset.range n).erase t, (Function.update stop t s i).begun =
        ∑ i ∈ (Finset.range n).erase t, (stop i).begun :=
      Finset.sum_congr rfl fun i hi => by rw [hupdate (Finset.ne_of_mem_erase hi)]
    have hmem := Finset.mem_range.mpr ht
    rw [h.shared, ← Finset.add_sum_erase _ _ hmem] at hadd
    rw [← Finset.add_sum_erase _ _ hmem, hrest, Function.update_self]
    omega
  case asleep =>
    intro i hi hasleep hopen
    have hopen' : m.world.state? (next n i) ≠ some .failed := fun hfailed =>
      hopen (Machine.state?_step h.recorded.coherent hstep hfailed nofun)
    by_cases hit : i = t
    · subst hit
      rw [Function.update_self] at hasleep
      refine hmove.rests_self (fun hawait => ?_) hasleep
      have hstage : m.board.stage i = .wait (next n i) .await := by
        rw [h.stage_eq hi, hawait]
        rfl
      exact Option.isSome_map.symm.trans (h.recorded.coherent.known i _ _ hstage)
    · rw [hupdate hit] at hasleep
      refine hmove.rests (fun houtside => ?_) (h.asleep i hi hasleep hopen') hopen
      rw [houtside] at hown
      exact Option.map_eq_none_iff.mp hown
  case caused =>
    intro i hi hanswered
    have hold : ∀ i < n, (stop i).refused? ≠ none →
        ∃ u < n, (Function.update stop t s u).refused? = some true := fun i hi hanswered => by
      obtain ⟨u, hu, hcycle⟩ := h.caused i hi hanswered
      exact ⟨u, hu, hrefused hcycle⟩
    by_cases hit : i = t
    case neg => exact hold i hi (by rwa [hupdate hit] at hanswered)
    subst hit
    rw [Function.update_self] at hanswered
    rcases hmove.refused?_eq with hsame | ⟨-, hfailed⟩ | ⟨-, hcycle⟩
    · exact hold i hi (hsame ▸ hanswered)
    · -- The next construction has failed, so its request had been answered.
      rw [h.slots, if_pos (next_lt hi)] at hfailed
      obtain ⟨refused, hended⟩ := Stop.slot?_eq_failed hfailed
      exact hold (next n i) (next_lt hi) (by rw [hended]; nofun)
    · exact ⟨i, hi, by rwa [Function.update_self]⟩
  case past =>
    intro i hi hcycle u hu hne
    have hpast : ∀ v < n, (stop v).Past → (Function.update stop t s v).Past := fun v hv hpast => by
      by_cases hvt : v = t
      · subst hvt
        rw [Function.update_self]
        exact hmove.past hpast
      · rwa [hupdate hvt]
    refine hpast u hu ?_
    by_cases hit : i = t
    case neg => exact h.past i hi (by rwa [hupdate hit] at hcycle) u hu hne
    subst hit
    rw [Function.update_self] at hcycle
    rcases hmove.refused?_eq with hsame | ⟨hfailed, -⟩ | ⟨hchase, -⟩
    · exact h.past i hi (hsame ▸ hcycle) u hu hne
    · rw [hfailed] at hcycle
      cases hcycle
    · exact h.past_of_refused hi hchase hu hne

/-! ### What is still to be done -/

/-- More than the number of steps that a ring has before it. -/
noncomputable def toGo (n : Nat) (stop : Nat → Stop) (m : Machine race Nat UInt32) : Nat :=
  ∑ i ∈ Finset.range n, (stop i).ahead n (m.linksLeft i) ((stop (next n i)).slot? = some .failed)

theorem toGo_le (h : Turning n stop log m) : toGo n stop m ≤ n * (n + 18) := by
  have hlength : m.threads.length = n := by rw [h.threads, List.length_map, List.length_range]
  refine (Finset.sum_le_card_nsmul _ _ (n + 18) fun i _ => Stop.ahead_le_add ?_ _).trans ?_
  · exact (Machine.linksLeft_le m i).trans (by rw [hlength])
  · rw [Finset.card_range, smul_eq_mul]

/-- Every step brings a ring closer to its end. -/
theorem toGo_lt (h : Turning n stop log m) {s : Stop} (ht : t < n)
    (hmove : Stop.Move m.world t (next n t) (stop t) (m.event? t) s m'.world)
    (h' : Turning n (Function.update stop t s) log' m') (hstep : m.step recipes t = some m') :
    toGo n (Function.update stop t s) m' < toGo n stop m := by
  have hfailed : ∀ i, (stop i).slot? = some .failed →
      (Function.update stop t s i).slot? = some .failed := by
    intro i hi
    have hne : i ≠ t := by
      rintro rfl
      obtain ⟨refused, hended⟩ := Stop.slot?_eq_failed hi
      exact hmove.ne_ended refused hended
    rwa [Function.update_of_ne hne]
  have hlength : m'.threads.length = n := by rw [h'.threads, List.length_map, List.length_range]
  have hlt : s.ahead n (m'.linksLeft t) ((Function.update stop t s (next n t)).slot? = some .failed) <
      (stop t).ahead n (m.linksLeft t) ((stop (next n t)).slot? = some .failed) := by
    refine hmove.ahead_lt (by rw [h.slots, if_pos (next_lt ht)]) (hfailed _) ?_ fun hbefore hafter => ?_
    · exact (Machine.linksLeft_le m' t).trans (by rw [hlength])
    · have hstage' : m'.board.stage t = (s.thread t (next n t)).stage := by
        rw [h'.stage_eq ht, Function.update_self]
      have hstep := Machine.linksLeft_step h.orderly hstep
        (by rw [h.stage_eq ht]; exact Stop.stage_thread_of_chasing hbefore)
        (by rw [hstage']; exact Stop.stage_thread_of_chasing hafter)
      rw [List.count_singleton_self] at hstep
      omega
  -- The thread that moves gets ahead; none of the others falls back.
  refine Finset.sum_lt_sum (fun i hi => ?_) ⟨t, Finset.mem_range.mpr ht, by rwa [Function.update_self]⟩
  by_cases hit : i = t
  · subst hit
    rw [Function.update_self]
    exact hlt.le
  · have hi := Finset.mem_range.mp hi
    have hsame : Function.update stop t s i = stop i := Function.update_of_ne hit ..
    rw [hsame]
    refine Stop.ahead_le (fun hchasing => ?_) (hfailed _)
    have hstep := Machine.linksLeft_step h.orderly hstep
      (by rw [h.stage_eq hi]; exact Stop.stage_thread_of_chasing hchasing)
      (by rw [h'.stage_eq hi, hsame]; exact Stop.stage_thread_of_chasing hchasing)
    omega

/-- A ring whose threads are inside their factories stays so, and comes closer to its end. -/
theorem step_inside (h : Turning n stop log m) (hin : ∀ i < n, stop i ≠ .outside)
    (hstep : m.step recipes t = some m') :
    ∃ stop', toGo n stop' m' < toGo n stop m ∧ Turning n stop' (log ++ (m.event? t).toList) m' ∧
      ∀ i < n, stop' i ≠ .outside := by
  obtain ⟨thread, -, -, hthread, -⟩ := Machine.step_eq_some hstep
  have ht := h.lt_of_thread hthread
  obtain ⟨-, s, hmove, h'⟩ := h.step (fun _ => hin _ (next_lt ht)) hstep
  refine ⟨_, h.toGo_lt ht hmove h' hstep, h', fun i hi => ?_⟩
  by_cases hit : i = t
  · subst hit
    rw [Function.update_self]
    exact hmove.ne_outside
  · rw [Function.update_of_ne hit]
    exact hin i hi

/-- A thread that has not come to its end can take a step, or another one can. -/
theorem exists_step (h : Turning n stop log m) (hover : m.isOver = false) :
    ∃ t < n, (m.step recipes t).isSome := by
  obtain ⟨t, hsome⟩ := h.orderly.exists_step recipes hover
  obtain ⟨m', hstep⟩ := Option.isSome_iff_exists.mp hsome
  obtain ⟨thread, -, -, hthread, -⟩ := Machine.step_eq_some hstep
  exact ⟨t, h.lt_of_thread hthread, hsome⟩

/-! ### From the start to the end -/

theorem start (n : Nat) : Turning n (fun _ => .outside) [] (Race.start (ring n)) := by
  have hthreads : (Race.start (ring n)).threads =
      (List.range n).map fun i => Stop.outside.thread i (next n i) := by
    simp [Race.start, Machine.start, ring, Stop.thread, next]
  refine ⟨.start _ _, .start _ _, Machine.chased_start _ _, hthreads, fun k => ?_, fun k => ?_, ?_,
    fun _ _ hasleep => (by cases hasleep), fun _ _ hanswered => absurd rfl hanswered,
    fun _ _ hrefused => (by cases hrefused)⟩
  · exact (ite_self _).symm
  · exact (ite_self _).symm
  · exact (Finset.sum_const_zero).symm

end Turning

/-- Where a thread of a ring is after so many turns, if these are at most two. -/
def Stop.afterTurns : Nat → Stop
  | 0 => .outside
  | 1 => .entered
  | _ => .asking

theorem Stop.afterTurns_ne_asking {turns : Nat} (hturns : turns < 2) : afterTurns turns ≠ .asking := by
  match turns with
  | 0 => nofun
  | 1 => nofun

theorem Stop.isSome_step_afterTurns {turns i j : Nat} (hturns : turns < 2) (w : World race Nat) :
    (((afterTurns turns).thread i j).step recipes i w).isSome := by
  match turns with
  | 0 =>
    simp only [afterTurns, thread, Thread.start, Task.ask, Thread.step, Thread.stepTask]
    split <;> rfl
  | 1 => rfl

theorem Stop.Move.eq_afterTurns {turns i j : Nat} (hturns : turns < 2) {w w' : World race Nat}
    {event : Option (Event race)} {s : Stop} (hmove : Move w i j (afterTurns turns) event s w') :
    s = afterTurns (turns + 1) := by
  match turns with
  | 0 => cases hmove; rfl
  | 1 => cases hmove; rfl

namespace Turning

/-- The threads of a ring come to be inside their factories. -/
theorem gather {before : List ThreadId} (hbefore : ∀ t < n, before.count t ≤ 2) :
    ∃ stop, Turning n stop ((Race.start (ring n)).log recipes before)
        ((Race.start (ring n)).follow recipes before) ∧
      ∀ t < n, stop t = .afterTurns (before.count t) := by
  induction before using List.reverseRecOn with
  | nil => exact ⟨fun _ => .outside, .start n, fun _ _ => rfl⟩
  | append_singleton before t ih =>
    have hle : ∀ u, before.count u ≤ (before ++ [t]).count u := fun u =>
      (List.sublist_append_left before [t]).count_le u
    obtain ⟨stop, hturning, hstops⟩ := ih fun u hu => (hle u).trans (hbefore u hu)
    have hother : ∀ u, u ≠ t → (before ++ [t]).count u = before.count u := fun u hu => by
      rw [List.count_append, List.count_singleton, if_neg (by simpa using Ne.symm hu), Nat.add_zero]
    rw [Machine.follow_append, Machine.log_append]
    by_cases ht : t < n
    · have hcount : (before ++ [t]).count t = before.count t + 1 := by
        rw [List.count_append, List.count_singleton_self]
      have hfew : before.count t < 2 := by
        have := hbefore t ht
        omega
      have hsome : (((Race.start (ring n)).follow recipes before).step recipes t).isSome := by
        rw [Machine.step, hturning.thread_eq ht, hstops t ht]
        exact Option.isSome_map.trans (Stop.isSome_step_afterTurns hfew _)
      obtain ⟨m', hstep⟩ := Option.isSome_iff_exists.mp hsome
      have hin : stop t = .asking → stop (next n t) ≠ .outside := fun hasking =>
        absurd ((hstops t ht).symm.trans hasking) (Stop.afterTurns_ne_asking hfew)
      obtain ⟨-, s, hmove, hturning'⟩ := hturning.step hin hstep
      refine ⟨Function.update stop t s, ?_, fun u hu => ?_⟩
      · simpa [Machine.follow, Machine.log, hstep] using hturning'
      · by_cases hut : u = t
        · subst hut
          rw [hstops u hu] at hmove
          rw [Function.update_self, hcount]
          exact hmove.eq_afterTurns hfew
        · rw [Function.update_of_ne hut, hother u hut, hstops u hu]
    · have hnone : ((Race.start (ring n)).follow recipes before).step recipes t = none := by
        have hout : ((Race.start (ring n)).follow recipes before).threads[t]? = none := by
          rw [hturning.threads]
          simpa using Nat.le_of_not_lt ht
        rw [Machine.step, hout]
      refine ⟨stop, ?_, fun u hu => ?_⟩
      · simpa [Machine.follow, Machine.log, hnone] using hturning
      · rw [hother u (by rintro rfl; exact ht hu), hstops u hu]

/-- Once all threads are inside their factories, a ring keeps turning. -/
theorem follow (h : Turning n stop log m) (hin : ∀ i < n, stop i ≠ .outside) (schedule : List ThreadId) :
    ∃ stop', Turning n stop' (log ++ m.log recipes schedule) (m.follow recipes schedule) :=
  (Machine.log_preserves
    (P := fun log m => ∃ stop, Turning n stop log m ∧ ∀ i < n, stop i ≠ .outside)
    (fun _ _ _ _ ⟨_, hturning, hin⟩ hstep => by
      obtain ⟨stop', -, hturning', hin'⟩ := hturning.step_inside hin hstep
      exact ⟨stop', hturning', hin'⟩)
    ⟨stop, h, hin⟩ schedule).imp fun _ h => h.1

/-- When all threads have come to their end, one of them has been refused, and all others have been told that
the next construction has failed. -/
theorem ended (h : Turning n stop log m) (hn : 1 ≤ n) (hover : m.isOver = true) :
    ∃ t < n, stop t = .ended true ∧ ∀ u < n, u ≠ t → stop u = .ended false := by
  have hended : ∀ i < n, ∃ refused, stop i = .ended refused := by
    intro i hi
    rw [Machine.isOver, List.all_eq_true] at hover
    have hending := hover _ (List.mem_of_getElem? (h.thread_eq hi))
    cases hstop : stop i with
    | ended refused => exact ⟨refused, rfl⟩
    | _ => rw [hstop] at hending; cases hending
  obtain ⟨refused, hfirst⟩ := hended 0 hn
  obtain ⟨t, ht, hcycle⟩ := h.caused 0 hn (by simp [hfirst, Stop.refused?])
  -- Whoever has come to its end was told of a failure, and the first failure was a refusal.
  refine ⟨t, ht, ?_, fun u hu hne => ?_⟩
  · obtain ⟨refused, hstop⟩ := hended t ht
    rw [hstop] at hcycle ⊢
    rw [Option.some.inj hcycle]
  · obtain ⟨refused, hstop⟩ := hended u hu
    rcases h.past t ht hcycle u hu hne with hpast | hpast | hpast
    · rw [hstop] at hpast; cases hpast
    · rw [hstop] at hpast; cases hpast
    · rw [hstop] at hpast ⊢
      rw [Option.some.inj hpast]

end Turning

/-! ## The end of a ring -/

/-- How a ring of threads ends. -/
structure Broken (n : Nat) (log : List (Event race)) (m : Machine race Nat UInt32) : Prop where
  /-- One thread is refused, since its request for the next key would have to wait for itself; all others
  are told that the construction of the next key has failed.  Each passes on what it has been told. -/
  refused : ∃ t < n,
    m.threads[t]? = some (.ended (some (.error (.cyclic (next n t))))) ∧
      ∀ u < n, u ≠ t → m.threads[u]? = some (.ended (some (.error (.poisoned (next n u)))))
  /-- Every thread's construction of its own key has begun once and ended once, and no other has begun. -/
  once : ∀ k, if k < n then
      ∃ failure, constructionsOf k log =
        [.begins k (.follow k (next n k)), .ends k k (some (.error failure))]
    else constructionsOf k log = []
  /-- Every factory has been run once. -/
  begun : m.world.shared = n
  /-- All slots have failed, and there are no others. -/
  failed : ∀ k, m.world.state? k = if k < n then some .failed else none

theorem Turning.broken (h : Turning n stop log m) (hn : 1 ≤ n) (hover : m.isOver = true) :
    Broken n log m := by
  obtain ⟨t, ht, hrefused, hothers⟩ := h.ended hn hover
  have hended : ∀ i < n, ∃ refused, stop i = .ended refused := fun i hi => by
    by_cases hit : i = t
    · exact ⟨true, hit ▸ hrefused⟩
    · exact ⟨false, hothers i hi hit⟩
  refine ⟨⟨t, ht, ?_, fun u hu hne => ?_⟩, fun k => ?_, ?_, fun k => ?_⟩
  · rw [h.thread_eq ht, hrefused]
    rfl
  · rw [h.thread_eq hu, hothers u hu hne]
    rfl
  · rw [h.constructions]
    split
    · next hk =>
      obtain ⟨refused, hstop⟩ := hended k hk
      rw [hstop]
      exact ⟨_, rfl⟩
    · rfl
  · have hone : ∀ i ∈ Finset.range n, (stop i).begun = 1 := fun i hi => by
      obtain ⟨refused, hstop⟩ := hended i (Finset.mem_range.mp hi)
      rw [hstop]
      rfl
    rw [h.shared, Finset.sum_congr rfl hone, Finset.sum_const, Finset.card_range, smul_eq_mul, mul_one]
  · rw [h.slots]
    split
    · next hk =>
      obtain ⟨refused, hstop⟩ := hended k hk
      rw [hstop]
      rfl
    · rfl

/-- A thread of a ring is in its own factory: about to note that it has begun, or about to ask for the key of
the next thread. -/
def Inside (n : Nat) (m : Machine race Nat UInt32) (t : ThreadId) : Prop :=
  ∃ task : Task race UInt32, m.threads[t]? = some ⟨.construct t, .run task, Stop.within t⟩ ∧
    (task = factory (.follow t (next n t)) ∨ task = Task.ask (I := race) (.give (next n t) (.ok 0)))

/-- A ring of threads that are all inside their own factories comes to its end, whatever the order in which
they take their steps from then on: they take no more than a certain number of steps, all have come to
their end at some time unless a thread is passed over for ever, and then the ring has broken in one place. -/
theorem ring_breaks {n : Nat} (hn : 1 ≤ n) {before : List ThreadId}
    (hbefore : ∀ t < n, before.count t = 1 ∨ before.count t = 2) :
    let gathered := (start (ring n)).follow recipes before
    (∀ t < n, Inside n gathered t) ∧
      (∀ after, gathered.taken recipes after ≤ n * (n + 18)) ∧
      (∀ turns : Nat → ThreadId, (∀ t < n, ∀ i, ∃ j ≥ i, turns j = t) →
        ∃ steps, (gathered.follow recipes ((List.range steps).map turns)).isOver = true) ∧
      ∀ after, (gathered.follow recipes after).isOver = true →
        Broken n ((start (ring n)).log recipes (before ++ after)) (gathered.follow recipes after) := by
  intro gathered
  have hfew : ∀ t < n, before.count t ≤ 2 := fun t ht => by
    rcases hbefore t ht with hcount | hcount <;> omega
  obtain ⟨stop, hturning, hstops⟩ := Turning.gather hfew
  have hin : ∀ t < n, stop t ≠ .outside := fun t ht => by
    rw [hstops t ht]
    rcases hbefore t ht with hcount | hcount <;> rw [hcount] <;> nofun
  -- The measure is how far the ring is from its end; the stops and the log are whatever fits.
  let P : Nat → Machine race Nat UInt32 → Prop := fun c m =>
    ∃ stop log, Turning n stop log m ∧ (∀ i < n, stop i ≠ .outside) ∧ Turning.toGo n stop m = c
  have hstep : ∀ c m t m', P c m → m.step recipes t = some m' → ∃ c' < c, P c' m' := by
    rintro c m t m' ⟨stop, log, hturning, hin, rfl⟩ hstep
    obtain ⟨stop', hlt, hturning', hin'⟩ := hturning.step_inside hin hstep
    exact ⟨_, hlt, stop', _, hturning', hin', rfl⟩
  have hgathered : P (Turning.toGo n stop gathered) gathered := ⟨stop, _, hturning, hin, rfl⟩
  refine ⟨fun t ht => ?_, fun after => ?_, fun turns hfair => ?_, fun after hover => ?_⟩
  · rw [Inside, hturning.thread_eq ht, hstops t ht]
    rcases hbefore t ht with hcount | hcount
    · exact ⟨_, by rw [hcount]; rfl, .inl rfl⟩
    · exact ⟨_, by rw [hcount]; rfl, .inr rfl⟩
  · exact (Machine.taken_le hstep hgathered after).trans hturning.toGo_le
  · refine Machine.isOver_of_fair hstep ?_ hfair hgathered
    rintro c m ⟨stop, log, hturning, -, -⟩ hover
    exact hturning.exists_step hover
  · obtain ⟨stop', hturning'⟩ := hturning.follow hin after
    rw [Machine.log_append]
    exact hturning'.broken hn hover

/-- Three threads, of which the last one is the first to enter its factory and the second one is about to ask
when they begin to take their steps in turn. -/
theorem ring_of_three_breaks :
    (∀ t < 3, [2, 0, 1, 1].count t = 1 ∨ [2, 0, 1, 1].count t = 2) ∧
      Broken 3 ((start (ring 3)).log recipes ([2, 0, 1, 1] ++ (List.replicate 24 [0, 1, 2]).flatten))
        (((start (ring 3)).follow recipes [2, 0, 1, 1]).follow recipes
          (List.replicate 24 [0, 1, 2]).flatten) := by
  have hbefore : ∀ t < 3, [2, 0, 1, 1].count t = 1 ∨ [2, 0, 1, 1].count t = 2 := by decide
  exact ⟨hbefore, (ring_breaks (by decide) hbefore).2.2.2 _ (by decide +kernel)⟩

end Race

end ShaderLowering.Construction
