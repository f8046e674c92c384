import ShaderLowering.Proofs.Threads.Progress
import ShaderLowering.Proofs.Threads.Refusals

/-!
# The threads of a ring

A thread of a ring is at one of a few stops on its way through its factory, and everything that it does
is one of the moves between them (`Stop.Move`, `Stop.move_of_step`).  On this way it never finds a slot
ready, since every factory of a ring fails; what can differ is only whether its request is refused with
a cycle or answered with the failure of the next construction.
-/

namespace ShaderLowering.Construction.Race

/-- The thread that a thread of a ring asks for the key of. -/
def next (n i : Nat) : Nat :=
  (i + 1) % n

/-- How far a thread of a ring has come.  Once its request has been answered, `refused` says whether that
was with a cycle. -/
inductive Stop where
  /-- About to ask for its own key. -/
  | outside
  /-- In its factory, about to note that it has begun. -/
  | entered
  /-- In its factory, about to ask for the next key. -/
  | asking
  | waiting (phase : Phase)
  | leaving
  | answered (refused : Bool)
  | publishing (refused : Bool)
  | ended (refused : Bool)
  deriving DecidableEq

/-- Why a request for a key has not been granted. -/
def reason (refused : Bool) (k : Nat) : Failure Nat UInt32 :=
  if refused then .cyclic k else .poisoned k

namespace Stop

/-- The construction of a key, which passes on what it ends with. -/
abbrev within (i : Nat) : Frames race UInt32 (.construct i) :=
  @Frames.enclosed race UInt32 .top i .done .base

/-- The thread that constructs key `i` and asks for key `j`. -/
def thread (i j : Nat) : Stop → Thread race UInt32
  | .outside => .start (Task.ask (I := race) (.follow i j))
  | .entered => ⟨.construct i, .run (factory (.follow i j)), within i⟩
  | .asking => ⟨.construct i, .run (Task.ask (I := race) (.give j (.ok 0))), within i⟩
  | .waiting phase => ⟨.construct i, .wait j phase .done, within i⟩
  | .leaving => ⟨.construct i, .leave j (.error (.poisoned j)) .done, within i⟩
  | .answered refused => ⟨.construct i, .run (.done (.error (reason refused j))), within i⟩
  | .publishing refused => ⟨.construct i, .publish (some (.error (reason refused j))), within i⟩
  | .ended refused => ⟨.top, .run (.done (.error (reason refused j))), .base⟩

/-- The state of the slot of the thread's own key. -/
def slot? : Stop → Option (SlotState UInt32)
  | .outside => none
  | .ended _ => some .failed
  | _ => some .building

/-- What is known of the answer to the thread's request: whether it is a cycle. -/
def refused? : Stop → Option Bool
  | .leaving => some false
  | .answered refused | .publishing refused | .ended refused => some refused
  | _ => none

/-- The thread can no longer be refused: it sleeps until the next construction has come to its end, or has
seen that it has failed. -/
def Past (stop : Stop) : Prop :=
  stop = .waiting .await ∨ stop = .waiting .asleep ∨ stop.refused? = some false

/-- What the log says of the construction of the thread's key. -/
def constructions (i j : Nat) : Stop → List (Event race)
  | .outside => []
  | .ended refused => [.begins i (.follow i j), .ends i i (some (.error (reason refused j)))]
  | _ => [.begins i (.follow i j)]

/-- How often the factory of the thread's key has been run. -/
def begun : Stop → Nat
  | .outside | .entered => 0
  | _ => 1

/-- The moves of the thread that constructs key `i` and asks for key `j`, with the event of each. -/
inductive Move (w : World race Nat) (i j : Nat) :
    Stop → Option (Event race) → Stop → World race Nat → Prop
  | begins : Move w i j .outside (some (.begins i (.follow i j))) .entered (w.install i i)
  | act : Move w i j .entered none .asking { w with shared := w.shared + 1 }
  | arrive : Move w i j .asking none (.waiting .inspect) w
  | look : Move w i j (.waiting .inspect) none (.waiting .enlist) w
  | turned (hfailed : w.state? j = some .failed) :
      Move w i j (.waiting .inspect) (some (.answers i j (.error (.poisoned j)))) (.answered false) w
  | enter : Move w i j (.waiting .enlist) none (.waiting .check) (w.setLock (some i))
  | skip : Move w i j (.waiting .check) none (.waiting .await) (w.setLock none)
  | chase {o : ThreadId} : Move w i j (.waiting .check) none (.waiting (.chase o)) w
  | follow {o o' : ThreadId} : Move w i j (.waiting (.chase o)) none (.waiting (.chase o')) w
  | refuse : Move w i j (.waiting (.chase i)) (some (.answers i j (.error (.cyclic j))))
      (.answered true) (w.setLock none)
  | commit {o : ThreadId} :
      Move w i j (.waiting (.chase o)) none (.waiting .await) ((w.record i j).setLock none)
  | wake (hfailed : w.state? j = some .failed) : Move w i j (.waiting .await) none .leaving w
  | doze (hopen : w.state? j ≠ some .failed) :
      Move w i j (.waiting .await) none (.waiting .asleep) (w.sleep i j)
  | stir (hfailed : w.state? j = some .failed) :
      Move w i j (.waiting .asleep) none (.waiting .await) w
  | leave : Move w i j .leaving (some (.answers i j (.error (.poisoned j)))) (.answered false) (w.forget i)
  | finish {refused : Bool} : Move w i j (.answered refused) none (.publishing refused) (w.finish i)
  | settle {refused : Bool} :
      Move w i j (.publishing refused) (some (.ends i i (some (.error (reason refused j)))))
        (.ended refused) (w.settle i .failed)

variable {w w' : World race Nat} {i j : Nat} {stop stop' : Stop} {event : Option (Event race)}

/-- A slot that is not ready answers with a failure or not at all. -/
theorem failed_of_answer? (hready : ∀ v, w.state? j ≠ some (.ready v)) {result : Result race UInt32}
    (hanswer : Thread.answer? w j = some result) :
    result = .error (.poisoned j) ∧ w.state? j = some .failed := by
  rw [Thread.answer?_eq] at hanswer
  obtain ⟨state, hstate, hresult⟩ := Option.bind_eq_some_iff.mp hanswer
  cases state with
  | building => cases hresult
  | ready v => exact absurd hstate (hready v)
  | failed => exact ⟨(Option.some.inj hresult).symm, hstate⟩

/-- What a thread that waits for a slot does is a move. -/
theorem move_of_waitsTo {phase : Phase} (hready : ∀ v, w.state? j ≠ some (.ready v))
    (hslept : phase = .asleep → w.state? j ≠ some .failed →
      ∀ cell, w.cells.get? j = some cell → i ∈ cell.sleepers)
    {control : Control race UInt32 (.construct i)}
    (hwait : Thread.WaitsTo i w j .done phase control w') :
    ∃ stop', (⟨.construct i, control, within i⟩ : Thread race UInt32) = stop'.thread i j ∧
      Move w i j (.waiting phase) (((waiting phase).thread i j).control.event? i w) stop' w' := by
  cases hwait with
  | answer hanswer =>
    obtain ⟨rfl, hfailed⟩ := failed_of_answer? hready hanswer
    refine ⟨.answered false, rfl, ?_⟩
    rw [show ((waiting .inspect).thread i j).control.event? i w =
      some (.answers i j (.error (.poisoned j))) by simp [thread, Control.event?, hanswer]]
    exact .turned hfailed
  | queue hopen =>
    refine ⟨.waiting .enlist, rfl, ?_⟩
    rw [show ((waiting .inspect).thread i j).control.event? i w = none by
      simp [thread, Control.event?, hopen]]
    exact .look
  | enter => exact ⟨.waiting .check, rfl, .enter⟩
  | skip => exact ⟨.waiting .await, rfl, .skip⟩
  | @chase owner => exact ⟨.waiting (.chase owner), rfl, .chase⟩
  | refuse =>
    refine ⟨.answered true, rfl, ?_⟩
    rw [show ((waiting (.chase i)).thread i j).control.event? i w =
      some (.answers i j (.error (.cyclic j))) by simp [thread, Control.event?]]
    exact .refuse
  | @commit owner hother =>
    refine ⟨.waiting .await, rfl, ?_⟩
    rw [show ((waiting (.chase owner)).thread i j).control.event? i w = none by
      simp [thread, Control.event?, hother]]
    exact .commit
  | @follow owner owner' link hother =>
    refine ⟨.waiting (.chase owner'), rfl, ?_⟩
    rw [show ((waiting (.chase owner)).thread i j).control.event? i w = none by
      simp [thread, Control.event?, hother]]
    exact .follow
  | wake hanswer =>
    obtain ⟨rfl, hfailed⟩ := failed_of_answer? hready hanswer
    exact ⟨.leaving, rfl, .wake hfailed⟩
  | doze hopen =>
    refine ⟨.waiting .asleep, rfl, .doze fun hfailed => ?_⟩
    rw [Thread.answer?_eq, hfailed] at hopen
    cases hopen
  | stir hcell hwoken =>
    refine ⟨.waiting .await, rfl, .stir ?_⟩
    by_contra hopen
    exact hwoken (hslept rfl hopen _ hcell)

/-- What a thread at a stop does is a move. -/
theorem move_of_step (hfree : stop = .outside → w.cells.get? i = none)
    (htaken : stop = .asking → (w.cells.get? j).isSome) (hready : ∀ v, w.state? j ≠ some (.ready v))
    (hslept : stop = .waiting .asleep → w.state? j ≠ some .failed →
      ∀ cell, w.cells.get? j = some cell → i ∈ cell.sleepers) {thread' : Thread race UInt32}
    (hstep : (stop.thread i j).step recipes i w = some (thread', w')) :
    ∃ stop', thread' = stop'.thread i j ∧
      Move w i j stop ((stop.thread i j).control.event? i w) stop' w' := by
  cases stop with
  | outside =>
    have hfree : w.cells.get? (Contender.key (.follow i j)) = none := hfree rfl
    simp only [thread, Thread.start, Task.ask, Thread.step, Thread.stepTask] at hstep
    simp only [thread, Thread.start, Task.ask, Control.event?, hfree] at hstep ⊢
    obtain ⟨rfl, rfl⟩ := Prod.mk.inj (Option.some.inj hstep)
    exact ⟨.entered, rfl, .begins⟩
  | entered =>
    obtain ⟨rfl, rfl⟩ := Prod.mk.inj (Option.some.inj hstep)
    exact ⟨.asking, rfl, .act⟩
  | asking =>
    have htaken : (w.cells.get? (Contender.key (.give j (.ok 0)))).isSome := htaken rfl
    obtain ⟨cell, hcell⟩ := Option.isSome_iff_exists.mp htaken
    simp only [thread, Task.ask, Thread.step, Thread.stepTask, hcell] at hstep
    simp only [thread, Task.ask, Control.event?, hcell]
    obtain ⟨rfl, rfl⟩ := Prod.mk.inj (Option.some.inj hstep)
    exact ⟨.waiting .inspect, rfl, .arrive⟩
  | waiting phase =>
    obtain ⟨⟨control, w''⟩, hwait, heq⟩ := Option.map_eq_some_iff.mp hstep
    obtain ⟨rfl, rfl⟩ := Prod.mk.inj heq
    exact move_of_waitsTo hready (fun hphase => hslept (by rw [hphase])) (Thread.waitsTo_of_stepWait hwait)
  | leaving =>
    simp only [thread, Thread.step] at hstep
    split at hstep
    · obtain ⟨rfl, rfl⟩ := Prod.mk.inj (Option.some.inj hstep)
      exact ⟨.answered false, rfl, .leave⟩
    · cases hstep
  | answered refused =>
    obtain ⟨rfl, rfl⟩ := Prod.mk.inj (Option.some.inj hstep)
    exact ⟨.publishing refused, rfl, .finish⟩
  | publishing refused =>
    obtain ⟨rfl, rfl⟩ := Prod.mk.inj (Option.some.inj hstep)
    exact ⟨.ended refused, rfl, .settle⟩
  | ended refused => cases hstep

/-! ## What a move changes -/

/-- A thread is among the sleepers of a slot. -/
def Rests (w : World race Nat) (u k : Nat) : Prop :=
  ∃ cell, w.cells.get? k = some cell ∧ u ∈ cell.sleepers

namespace Move

variable (hmove : Move w i j stop event stop' w')
include hmove

theorem ne_ended (refused : Bool) : stop ≠ .ended refused := by
  cases hmove <;> nofun

theorem ne_outside : stop' ≠ .outside := by
  cases hmove <;> nofun

/-- A move changes the slot of the thread's own key, if any. -/
theorem state?_eq (hown : w.state? i = stop.slot?) (k : Nat) :
    w'.state? k = if k = i then stop'.slot? else w.state? k := by
  have hsame : stop'.slot? = stop.slot? → w'.state? k = w.state? k →
      w'.state? k = if k = i then stop'.slot? else w.state? k := by
    intro hslot hkeep
    split
    · next hk => rw [hkeep, hk, hown, hslot]
    · exact hkeep
  cases hmove with
  | begins =>
    split
    · next hk => subst hk; exact World.state?_install w k k
    · next hk => exact World.state?_install_of_ne hk w i
  | doze => exact hsame rfl (World.state?_sleep w i j k)
  | finish => exact hsame rfl (World.state?_finish w i k)
  | settle =>
    split
    · next hk =>
      subst hk
      exact World.state?_settle .failed (by rw [hown]; rfl)
    · next hk => exact World.state?_settle_of_ne hk w .failed
  | _ => exact hsame rfl rfl

/-- The events of a move are what it adds to the construction of the thread's own key. -/
theorem constructions_eq :
    stop'.constructions i j = stop.constructions i j ++ constructionsOf i event.toList := by
  cases hmove with
  | begins =>
    have hbuilds : Event.Builds (I := race) i (.begins i (.follow i j)) := rfl
    exact (constructionsOf_singleton hbuilds).symm
  | @settle refused =>
    have hbuilds : Event.Builds (I := race) i (.ends i i (some (.error (reason refused j)))) := rfl
    exact congrArg _ (constructionsOf_singleton hbuilds).symm
  | turned | refuse | leave =>
    exact (List.append_nil _).symm.trans (congrArg _ (constructionsOf_eq_nil (by simp [Event.Builds])).symm)
  | _ => rfl

/-- A move is no event of the construction of another key. -/
theorem constructionsOf_of_ne {k : Nat} (hk : k ≠ i) : constructionsOf (I := race) k event.toList = [] := by
  refine constructionsOf_eq_nil fun e he hbuilds => ?_
  cases hmove with
  | begins =>
    obtain rfl := Option.some.inj he
    exact hk hbuilds.symm
  | settle =>
    obtain rfl := Option.some.inj he
    exact hk hbuilds.symm
  | turned | refuse | leave =>
    obtain rfl := Option.some.inj he
    exact hbuilds
  | _ => cases he

theorem shared_add : w'.shared + stop.begun = w.shared + stop'.begun := by
  cases hmove <;>
    simp [begun, World.install, World.setLock, World.record, World.forget, World.sleep, World.finish,
      World.settle]

/-- A thread sleeps on until the slot is settled. -/
theorem rests (hfree : stop = .outside → w.cells.get? i = none) {u k : Nat} (h : Rests w u k)
    (hopen : w'.state? k ≠ some .failed) : Rests w' u k := by
  obtain ⟨cell, hcell, hmem⟩ := h
  cases hmove with
  -- A thread begins in a slot that was free, so no one sleeps there.
  | begins =>
    have hk : k ≠ i := by
      rintro rfl
      rw [hfree rfl] at hcell
      cases hcell
    exact ⟨cell, by rw [World.install, Table.get?_set_of_ne hk, hcell], hmem⟩
  | doze =>
    by_cases hk : k = j
    · subst hk
      exact ⟨_, by rw [World.sleep, World.get?_modifyCell_self, hcell]; rfl, List.mem_cons_of_mem _ hmem⟩
    · exact ⟨cell, by rw [World.sleep, World.get?_modifyCell_of_ne hk, hcell], hmem⟩
  | finish =>
    by_cases hk : k = i
    · subst hk
      exact ⟨{ cell with finished := true }, by rw [World.finish, World.get?_modifyCell_self, hcell]; rfl,
        hmem⟩
    · exact ⟨cell, by rw [World.finish, World.get?_modifyCell_of_ne hk, hcell], hmem⟩
  | settle =>
    by_cases hk : k = i
    · subst hk
      exact absurd (World.state?_settle .failed (by rw [World.state?, hcell]; rfl)) hopen
    · exact ⟨cell, by rw [World.settle, World.get?_modifyCell_of_ne hk, hcell], hmem⟩
  | _ => exact ⟨cell, hcell, hmem⟩

/-- A thread that goes to sleep is among the sleepers. -/
theorem rests_self (htaken : stop = .waiting .await → (w.cells.get? j).isSome)
    (hasleep : stop' = .waiting .asleep) : Rests w' i j := by
  cases hmove with
  | doze =>
    obtain ⟨cell, hcell⟩ := Option.isSome_iff_exists.mp (htaken rfl)
    exact ⟨_, by rw [World.sleep, World.get?_modifyCell_self, hcell]; rfl, List.mem_cons_self⟩
  | _ => cases hasleep

theorem past (h : stop.Past) : stop'.Past := by
  rcases h with rfl | rfl | h
  · cases hmove <;> simp [Past, refused?]
  · cases hmove
    exact .inl rfl
  · cases hmove <;> simp_all [Past, refused?]

/-- The answer to the thread's request comes once.  It is a failure if the next construction has failed, or a
cycle if the chain of waits has led back to the thread. -/
theorem refused?_eq : stop'.refused? = stop.refused? ∨
    stop'.refused? = some false ∧ w.state? j = some .failed ∨
    stop = .waiting (.chase i) ∧ stop'.refused? = some true := by
  cases hmove <;> simp_all [refused?]

theorem refused?_of_some {refused : Bool} (h : stop.refused? = some refused) :
    stop'.refused? = some refused := by
  cases hmove <;> simp_all [refused?]

end Move

/-! ## How far a thread has to go -/

/-- More than the number of moves that a thread of a ring of `n` has before it, where it may follow so many
more links of a chain of waits, and the next construction has or has not failed. -/
def ahead (n links : Nat) (failed : Prop) [Decidable failed] : Stop → Nat
  | .outside => n + 18
  | .entered => n + 17
  | .asking => n + 16
  | .waiting .inspect => n + 15
  | .waiting .enlist => n + 14
  | .waiting .check | .waiting (.chase _) => links + 10
  | .waiting .await => if failed then 6 else 9
  | .waiting .asleep => if failed then 7 else 8
  | .leaving => 5
  | .answered _ => 4
  | .publishing _ => 3
  | .ended _ => 0

/-- The thread follows a chain of waits. -/
def Chasing (stop : Stop) : Prop :=
  stop = .waiting .check ∨ ∃ o, stop = .waiting (.chase o)

theorem ahead_le_add {n links : Nat} {failed : Prop} [Decidable failed] (hlinks : links ≤ n + 1)
    (stop : Stop) : stop.ahead n links failed ≤ n + 18 := by
  cases stop with
  | waiting phase => cases phase <;> simp only [ahead] <;> (try split) <;> omega
  | _ => simp only [ahead]; omega

/-- A thread has no further to go for what the others do. -/
theorem ahead_le {n links links' : Nat} {failed failed' : Prop} [Decidable failed] [Decidable failed']
    (hlinks : stop.Chasing → links' ≤ links) (hfailed : failed → failed') :
    stop.ahead n links' failed' ≤ stop.ahead n links failed := by
  cases stop with
  | waiting phase =>
    cases phase with
    | check => exact Nat.add_le_add_right (hlinks (.inl rfl)) 10
    | chase o => exact Nat.add_le_add_right (hlinks (.inr ⟨o, rfl⟩)) 10
    | await | asleep =>
      by_cases hsettled : failed
      · simp [ahead, hsettled, hfailed hsettled]
      · simp only [ahead, if_neg hsettled]
        split <;> omega
    | _ => exact Nat.le_refl _
  | _ => exact Nat.le_refl _

/-- Every move takes a thread further. -/
theorem Move.ahead_lt {n links links' : Nat} {failed failed' : Prop} [Decidable failed] [Decidable failed']
    (hmove : Move w i j stop event stop' w') (hstate : w.state? j = some .failed ↔ failed)
    (hfailed : failed → failed') (hbound : links' ≤ n + 1)
    (hlinks : stop.Chasing → stop'.Chasing → links' < links) :
    stop'.ahead n links' failed' < stop.ahead n links failed := by
  cases hmove with
  | enter => simp only [ahead]; omega
  | chase => exact Nat.add_lt_add_right (hlinks (.inl rfl) (.inr ⟨_, rfl⟩)) 10
  | follow => exact Nat.add_lt_add_right (hlinks (.inr ⟨_, rfl⟩) (.inr ⟨_, rfl⟩)) 10
  | skip | commit => simp only [ahead]; split <;> omega
  | wake => simp only [ahead]; split <;> omega
  | doze hopen =>
    rw [ahead, ahead, if_neg (mt hstate.mpr hopen)]
    split <;> omega
  | stir hstir =>
    have hsettled := hstate.mp hstir
    rw [ahead, ahead, if_pos hsettled, if_pos (hfailed hsettled)]
    omega
  | _ => simp only [ahead]; omega

end Stop

end ShaderLowering.Construction.Race
