import ShaderLowering.Proofs.Sessions.Regime
import ShaderLowering.Proofs.Threads.Progress

/-!
# Regimes on threads

A regime says which keys a construction may ask for and which keys can be constructed.  None of that depends
on the order in which requests are answered, so a lawful regime is a discipline for threads as well
(`Regime.lawful_discipline`), one that keeps no notes: what is ready is good, what has failed is not, and
every slot is of a key to which what the threads ask for themselves leads (`Regime.Met`).

What a thread has under way is then a chain of keys, each asked for by the one around it
(`Regime.chain_keys`), and no key stands in it twice; so it is no longer than the regime lets chains be
(`Regime.length_keys_le`).  Slots are taken one at a time: a step that begins a construction takes a slot
that was free, and no other step takes or gives back one (`Machine.step_slots`).
-/

namespace ShaderLowering.Construction

open Relation (ReflTransGen)

variable {I : Interface} {σ α : Type}

namespace Regime

variable (D : Regime I σ) (roots : I.Key → Prop)

/-- A key that is asked for, at the outset or by the constructions of keys that are. -/
def Met (k : I.Key) : Prop :=
  D.known k ∧ ∃ root, roots root ∧ ReflTransGen D.asks root k

/-- What threads keep to whose constructions keep to a regime. -/
def discipline : Discipline I σ Empty where
  recipes := D.recipes
  inv _ _ := True
  within _ := True
  known _ k := D.Met roots k
  needs := D.asks
  holds _ k _ := D.good k
  fails k := ¬D.good k

variable {D roots} {goal : Goal I.Key} {h : List (I.Key × Empty)} {bad : Prop}
  {t : Task I α} {R : α → Prop} {k k' : I.Key}

theorem Met.of_root (hknown : D.known k) (hroot : roots k) : D.Met roots k :=
  ⟨hknown, k, hroot, .refl⟩

theorem Met.asks (hD : D.Lawful) (hk : D.Met roots k) (hasks : D.asks k k') : D.Met roots k' := by
  obtain ⟨-, root, hroot, hpath⟩ := hk
  exact ⟨hD.known_of_asks _ _ hasks, root, hroot, hpath.tail hasks⟩

/-- What is asked for is good if what is asked for at the outset is. -/
theorem Met.good (hD : D.Lawful) (hroots : ∀ k, roots k → D.good k) (hk : D.Met roots k) :
    D.good k := by
  obtain ⟨-, root, hroot, hpath⟩ := hk
  induction hpath with
  | refl => exact hroots root hroot
  | tail _ hasks ih => exact hD.good_of_asks _ _ hasks ih

/-- A task that obeys is safe: it asks for what it may, and it fails only if something is bad or one of the
keys that it asks for is not good. -/
theorem safe_of_obeys (roots asked : I.Key → Prop)
    (hmet : ∀ k, asked k → D.Met roots k ∧ (D.discipline roots).Allows goal k)
    (ht : t.Obeys asked D.good bad R) :
    (D.discipline roots).Safe goal h t fun _ result => match result with
      | .ok v => R v
      | .error _ => bad ∨ ∃ k, asked k ∧ ¬D.good k := by
  induction t generalizing h with
  | done result =>
    intro h' s _
    cases result with
    | ok v => exact ht
    | error e => exact .inl ht.1
  | panic => exact ht.elim
  | act action next ih =>
    intro h' s _ _
    exact ⟨[], nofun, trivial, ih _ (ht _)⟩
  | peek k next => exact ht.elim
  | request r next ih =>
    intro h' s _ _
    obtain ⟨hasked, hok, herror⟩ := ht
    obtain ⟨hknown, hallowed⟩ := hmet _ hasked
    refine ⟨hknown, hallowed, fun result hanswer => ?_⟩
    cases result with
    | ok v => exact ih _ (hok v hanswer)
    | error e =>
      rw [herror e]
      exact fun _ _ _ => .inr ⟨_, hasked, hanswer⟩

/-- A lawful regime is a lawful discipline. -/
theorem lawful_discipline (hD : D.Lawful) : (D.discipline roots).Lawful where
  within_of_act _ _ _ := trivial
  known_append _ _ _ hknown := hknown
  holds_append _ _ _ _ _ hgood := hgood
  abandoned_append _ _ _ _ _ := trivial
  fails_of_cycle k hcycle := hD.not_good_of_cycle k hcycle
  factory r h hknown _ := by
    have hsafe : (D.discipline roots).Safe (.construct (I.key r)) h (D.recipes.factory r) _ :=
      safe_of_obeys roots (D.asks (I.key r))
        (fun k hasks => ⟨hknown.asks hD hasks, hasks⟩) (hD.factory r hknown.1)
    refine hsafe.mono fun h' result hresult => ?_
    cases result with
    | ok v => exact hresult
    | error e =>
      refine ⟨?_, trivial⟩
      rcases hresult with hwrong | ⟨k, hasks, hno⟩
      · exact hD.not_good_of_wrong _ hwrong
      · exact fun hgood => hno (hD.good_of_asks _ k hasks hgood)

/-- Threads that obey a lawful regime keep to it under every schedule. -/
theorem governed_follow (hD : D.Lawful) (hroots : ∀ k, roots k → D.known k)
    {tasks : List (Task I α)} (shared : σ)
    (htasks : ∀ task ∈ tasks, ∃ bad R, task.Obeys roots D.good bad R) (schedule : List ThreadId) :
    ∃ h, (D.discipline roots).Governed (fun _ _ _ => True)
      ((Machine.start tasks shared).follow D.recipes schedule) h := by
  have hstart : (D.discipline roots).Governed (fun _ _ _ => True) (Machine.start tasks shared) [] := by
    refine .start trivial fun t task htask => ?_
    obtain ⟨bad, R, hobeys⟩ := htasks task (List.mem_of_getElem? htask)
    refine .mono (fun _ _ _ => trivial) (safe_of_obeys roots roots (fun k hroot => ?_) hobeys)
    exact ⟨.of_root (hroots k hroot) hroot, trivial⟩
  obtain ⟨l, hend⟩ := hstart.follow (lawful_discipline hD) schedule trivial
  exact ⟨_, hend⟩

section Governed

variable {P : ThreadId → List (I.Key × Empty) → Result I α → Prop} {m : Machine I σ α} {t : ThreadId}

/-- What a thread has under way is a chain of keys that ask for each other. -/
theorem chain_keys (hm : (D.discipline roots).Governed P m h) (t : ThreadId) :
    D.Chain (m.board.keys t) := by
  cases hthread : m.threads[t]? with
  | none =>
    have hkeys : m.board.keys t = [] := by simp [Machine.board, hthread]
    rw [hkeys]
    exact .nil
  | some thread =>
    have hheeds := ((hm.threads t thread hthread).heeds).frames
    rw [Machine.board_keys hthread, Chain, List.isChain_iff_forall_rel_of_append_cons_cons]
    rintro inner outer l l' hkeys
    exact hheeds.relates ⟨l, l', by rw [List.append_assoc]; exact hkeys.symm⟩

/-- No thread has more under way than chains are long. -/
theorem length_keys_le (hm : (D.discipline roots).Governed P m h) {bound : Nat}
    (hbound : D.Bounded bound) (t : ThreadId) : (m.board.keys t).length ≤ bound :=
  hbound _ (chain_keys hm t) (hm.coherent.nodup t)

/-- What a thread is about to ask for is asked for by the construction that it carries out. -/
theorem asks_of_request (hm : (D.discipline roots).Governed P m h) {k : I.Key} {r : I.Request}
    {next : Result I (I.Value (I.key r)) → Task I (I.Value k)} {frames : Frames I α (.construct k)}
    (hthread : m.threads[t]? = some ⟨.construct k, .run (.request r next), frames⟩) :
    D.asks k (I.key r) := by
  have hsafe := (hm.threads t _ hthread).control
  exact (hsafe h m.world.shared ⟨.refl _ h, trivial, trivial⟩ nofun).2.1

end Governed

end Regime

/-! ## Slots -/

namespace Machine

variable {recipes : Recipes I σ} {m m' : Machine I σ α} {t : ThreadId}

/-- The keys that have been asked for, that is, whose factories have been started. -/
def slots (m : Machine I σ α) : List I.Key :=
  m.world.cells.keys

theorem mem_slots_iff {k : I.Key} : k ∈ m.slots ↔ (m.world.state? k).isSome := by
  rw [slots, Table.mem_keys_iff, World.state?, Option.isSome_map]

theorem nodup_slots (m : Machine I σ α) : m.slots.Nodup :=
  m.world.cells.nodup

end Machine

theorem World.keys_modifyCell (w : World I σ) (k : I.Key)
    (f : Cell (I.Value k) → Cell (I.Value k)) : (w.modifyCell k f).cells.keys = w.cells.keys := by
  unfold World.modifyCell
  split
  · next cell hcell => exact Table.keys_set_of_some _ (by rw [hcell]; rfl)
  · rfl

/-- What a step makes of the constructions that a thread has under way, and of the slots that there are: it
begins one in a slot that was free, it ends the innermost one, or it does neither. -/
inductive Turn {κ : Type} : List κ × List κ → List κ × List κ → Prop
  | begins {underway slots : List κ} (k : κ) (hfree : k ∉ slots) :
      Turn (underway, slots) (k :: underway, slots ++ [k])
  | goes (underway slots : List κ) : Turn (underway, slots) (underway, slots)
  | ends (k : κ) (underway slots : List κ) : Turn (k :: underway, slots) (underway, slots)

namespace Machine

variable {recipes : Recipes I σ} {m m' : Machine I σ α} {t : ThreadId}

/-- Every step of a thread is a turn: it begins a construction only in a slot that was free. -/
theorem step_slots (hstep : m.step recipes t = some m') :
    Turn (m.board.keys t, m.slots) (m'.board.keys t, m'.slots) := by
  obtain ⟨thread, thread', w, hthread, hnext, rfl⟩ := stepsTo_of_step hstep
  rw [board_keys hthread, board_keys (threads_set_self hthread thread' w)]
  -- The cells of the keys are those of before wherever no slot is taken.
  have hgoes : ∀ underway, w.cells.keys = m.slots →
      Turn (underway, m.slots) (underway, w.cells.keys) := by
    intro underway hkeys
    rw [hkeys]
    exact .goes _ _
  cases hnext with
  | act => exact .goes _ _
  | peek => exact .goes _ _
  | arrive => exact .goes _ _
  | @begins goal frames r next hfree =>
    -- Only here is a slot taken, and it was just looked at under the lock: it was free.
    have hslots : (m.world.install t (I.key r)).cells.keys = m.slots ++ [I.key r] :=
      Table.keys_set_of_none _ hfree
    change Turn _ (_, (m.world.install t (I.key r)).cells.keys)
    rw [hslots]
    refine .begins _ fun hmem => ?_
    rw [slots, Table.mem_keys_iff, hfree] at hmem
    cases hmem
  | finish => exact hgoes _ (World.keys_modifyCell m.world _ _)
  | wait hwait =>
    -- Waiting changes marks of other threads at most, never which cells there are.
    rcases hwait.cells with hcells | ⟨-, rfl⟩
    · exact hgoes _ (congrArg Table.keys hcells)
    · exact hgoes _ (World.keys_modifyCell m.world _ _)
  | leave => exact .goes _ _
  | publish =>
    change Turn _ (_, (m.world.settle _ _).cells.keys)
    rw [World.settle, World.keys_modifyCell]
    exact .ends _ _ _

end Machine

end ShaderLowering.Construction
