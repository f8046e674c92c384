import ShaderLowering.Construction.Script
import ShaderLowering.Proofs.Threads.Alone
import ShaderLowering.Proofs.Threads.Refusals

/-!
# Scripts are what a lone thread does

Scripts are resolved by a recursion that is cut off at a depth.  The insertions that the factory of an
insertion makes nest less deep than itself, so the cut is never made (`Script.ending?_execute`); hence
what a script leaves in its slots is what a thread sees that is alone (`Script.solitary`).
-/

namespace ShaderLowering.Construction

variable {I : Interface} {σ α β : Type}

namespace Task

/-- A task whose requests are all followed to their ends is followed to its end. -/
theorem ending?_run {recipes : Recipes I σ} {answer : Answerer I σ} {task : Task I α}
    (hanswer : ∀ r, task.Requests r → ∀ s, ((answer r s).1.ending?).isSome) (s : State I σ) :
    ((task.run recipes answer s).1.ending?).isSome := by
  induction task generalizing s with
  | done result => rfl
  | panic => rfl
  | act action next ih => exact ih _ (fun r hr => hanswer r (.act hr)) _
  | peek k next ih => exact ih _ (fun r hr => hanswer r (.peek hr)) _
  | request r next ih =>
    have hfirst := hanswer r .now s
    rw [Task.run]
    rcases hfound : answer r s with ⟨result | unwound | _, s'⟩
    · exact ih result (fun r' hr => hanswer r' (.later hr)) s'
    · rfl
    · rw [hfound] at hfirst
      cases hfirst

theorem requests_bind {task : Task I α} {f : α → Task I β} {r : I.Request}
    (h : (task.bind f).Requests r) : task.Requests r ∨ ∃ a, (f a).Requests r := by
  induction task with
  | done result =>
    cases result with
    | error e => cases h
    | ok a => exact .inr ⟨a, h⟩
  | panic => cases h
  | act action next ih =>
    cases h with
    | act h => exact (ih _ h).imp_left .act
  | peek k next ih =>
    cases h with
    | peek h => exact (ih _ h).imp_left .peek
  | request r' next ih =>
    cases h with
    | now => exact .inl .now
    | later h => exact (ih _ h).imp_left .later

end Task

/-- Where the requests of a factory rank below its own, requests are followed to their ends at any depth above
their rank. -/
theorem ending?_resolve {recipes : Recipes I σ} {rank : I.Request → Nat}
    (hrank : ∀ r r', (recipes.factory r).Requests r' → rank r' < rank r) {depth : Nat} {r : I.Request}
    (hdepth : rank r < depth) (s : State I σ) : ((resolve recipes depth r s).1.ending?).isSome := by
  induction depth generalizing r s with
  | zero => cases hdepth
  | succ depth ih =>
    rw [resolve]
    cases s.slots.get? (I.key r) with
    | some state => cases state <;> rfl
    | none =>
      -- Ranks fall along requests, so the depth that is left is enough for each of them.
      have hrequests : ∀ r', (recipes.factory r).Requests r' → ∀ s',
          ((resolve recipes depth r' s').1.ending?).isSome := fun r' hr s' =>
        ih ((hrank r r' hr).trans_le (Nat.le_of_lt_succ hdepth)) s'
      have hfactory : (((recipes.factory r).run recipes (resolve recipes depth)
          (s.settle (I.key r) .building)).1.ending?).isSome := Task.ending?_run hrequests _
      rcases hrun : (recipes.factory r).run recipes (resolve recipes depth)
        (s.settle (I.key r) .building) with ⟨result | unwound | _, s'⟩
      · rfl
      · rfl
      · rw [hrun] at hfactory
        cases hfactory

namespace Script

theorem insert_mem_of_requests {steps : List Step} {total : UInt32} {insertion : Insertion}
    (h : (runSteps total steps).Requests insertion) : .insert insertion ∈ steps := by
  induction steps generalizing total with
  | nil => cases h
  | cons step steps ih =>
    cases step with
    | get key =>
      cases h with
      | peek h =>
        cases h with
        | act h => exact List.mem_cons_of_mem _ (ih h)
    | insert first =>
      cases h with
      | now => exact List.mem_cons_self
      | @later _ _ _ result h =>
        cases h with
        | act h =>
          cases result with
          | ok value => exact List.mem_cons_of_mem _ (ih h)
          | error e =>
            change Task.Requests (if first.strict then .done (.error e) else runSteps total steps) _ at h
            split at h
            · cases h
            · exact List.mem_cons_of_mem _ (ih h)

theorem depth_lt_of_mem {steps : List Step} {insertion : Insertion} (h : .insert insertion ∈ steps) :
    depthOf insertion.steps < depthOf steps := by
  induction steps with
  | nil => cases h
  | cons step steps ih =>
    rw [depthOf]
    rcases List.mem_cons.mp h with rfl | h
    · obtain ⟨key, inner, ending, strict⟩ := insertion
      exact lt_max_of_lt_left (by rw [Step.depth, Insertion.depth]; exact Nat.lt_succ_self _)
    · exact lt_max_of_lt_right (ih h)

theorem depth_lt_of_requests {outer inner : Insertion} (h : (factory outer).Requests inner) :
    depthOf inner.steps < depthOf outer.steps := by
  rcases Task.requests_bind h with hsteps | ⟨total, hending⟩
  · exact depth_lt_of_mem (insert_mem_of_requests hsteps)
  · cases hend : outer.ending <;> rw [hend] at hending <;> cases hending

/-- The steps of a script are followed to their end. -/
theorem ending?_execute (total : UInt32) (steps : List Step) (s : State script (List Event)) :
    (((runSteps total steps).execute recipes (depthOf steps) s).1.ending?).isSome :=
  Task.ending?_run (fun _ hr => ending?_resolve (fun _ _ => depth_lt_of_requests)
    (depth_lt_of_mem (insert_mem_of_requests hr))) s

/-- A state is what a lone thread sees that has come to the end of its task. -/
def Shown (s : State script (List Event)) : Prop :=
  ∃ log, ∃ m : Machine script (List Event) UInt32, Alone log m ∧ m.isOver = true ∧
    Mirrors s { m.world with shared := s.shared }

theorem shown_start : Shown (.start []) :=
  ⟨[], .start [.done (.ok 0)] [], .start _ _, rfl, fun _ => rfl, rfl, rfl, rfl⟩

theorem Shown.runStep {s : State script (List Event)} (h : Shown s) (step : Step) :
    Shown (runStep step s).2 := by
  obtain ⟨log, m, halone, hover, hmirrors⟩ := h
  have hdepth : depthOf [step] = step.depth := Nat.max_zero _
  have hends := ending?_execute 0 [step] { s with shared := [] }
  rw [hdepth] at hends
  rcases hrun : (runSteps 0 [step]).execute recipes step.depth { s with shared := [] } with ⟨outcome, s'⟩
  rw [hrun] at hends
  obtain ⟨ending, hending⟩ := Option.isSome_iff_exists.mp hends
  have hafter : (Script.runStep step s).2 = s' := by
    rw [Script.runStep, hrun]
    cases outcome <;> rfl
  have hmirrors' : Mirrors { s with shared := [] } { m.world with shared := ([] : List Event) } :=
    ⟨hmirrors.cells, hmirrors.waiting, hmirrors.lock, rfl⟩
  obtain ⟨later, w, hused, hshown⟩ := Alone.executed hover hmirrors' hrun hending
  rw [hafter]
  refine ⟨_, _, halone.of_uses hused, ?_, hshown.cells, hshown.waiting, hshown.lock, rfl⟩
  cases ending <;> rfl

/-- Every step of every script comes to its end, and leaves what a lone thread sees in the slots. -/
theorem solitary (steps : List Step) :
    ∃ log, ∃ m : Machine script (List Event) UInt32, Solitary recipes log m ∧ m.isOver = true ∧
      ∀ k, m.world.state? k =
        (steps.foldl (fun s step => (runStep step s).2) (.start [])).slots.get? k := by
  have hshown : ∀ s, Shown s → Shown (steps.foldl (fun s step => (runStep step s).2) s) := by
    induction steps with
    | nil => exact fun s hs => hs
    | cons step steps ih => exact fun s hs => ih _ (hs.runStep step)
  obtain ⟨log, m, halone, hover, hmirrors⟩ := hshown _ shown_start
  refine ⟨log, m, halone.solitary recipes, hover, fun k => ?_⟩
  have hcell : m.world.cells.get? k = _ := hmirrors.cells k
  rw [World.state?, hcell, Option.map_map]
  exact Option.map_id'

end Script

end ShaderLowering.Construction
