import ShaderLowering.Lowering.Clients
import ShaderLowering.Proofs.Sessions.Types
import ShaderLowering.Proofs.Threads.OneThread

/-!
# A session is a client on its own

To ask a session for one thing after another is what a single client does, whether the requests succeed
or not: a machine with that client comes to a world that mirrors the state of the session
(`Session.askAll_follow`).  So a law about clients on any schedule is a law about sessions as well.
-/

namespace ShaderLowering

open Construction

/-- To attempt a task is to run it, and to go on with its result. -/
theorem Construction.Task.run_attempt {I : Interface} {σ α : Type} (recipes : Recipes I σ)
    (answer : Answerer I σ) (t : Task I α) (s : State I σ) :
    t.attempt.run recipes answer s = match t.run recipes answer s with
      | (.returned result, s) => (.returned (.ok result), s)
      | (.panicked unwound, s) => (.panicked unwound, s)
      | (.exhausted, s) => (.exhausted, s) := by
  induction t generalizing s with
  | done result => rfl
  | panic => rfl
  | act action next ih => exact ih _ _
  | peek key next ih => exact ih _ _
  | request r next ih =>
    simp only [Task.attempt, Task.run]
    rcases answer r s with ⟨_ | _ | _, s'⟩
    · exact ih _ _
    · rfl
    · rfl

namespace Session

variable {a : Assembly} {s : Session}

/-- A request is answered, if only with an error. -/
theorem ask_returned (hnumbered : a.Numbered) (hs : (regime a).Tidy [] s) (request : Request) :
    ∃ result, (s.ask a request).1 = .returned result := by
  have hends := run_ends hnumbered (fun _ hk => hk) request.task_obeys hs fun _ _ _ _ => trivial
  change (regime a).Ends [] _ _ _ _ (s.ask a request) at hends
  rcases hask : s.ask a request with ⟨result | _ | _, s'⟩ <;> rw [hask] at hends
  · exact ⟨result, rfl⟩
  · exact hends.elim
  · exact hends.elim

/-- Requests that are carried out in turn leave the state that they leave one by one. -/
theorem run_inTurn (hnumbered : a.Numbered) (requests : List Request) :
    ∀ s : Session, (regime a).Tidy [] s →
      s.run a (Request.inTurn a requests) = (.returned (.ok ()), s.askAll a requests) := by
  induction requests with
  | nil => exact fun s _ => rfl
  | cons request requests ih =>
    intro s hs
    obtain ⟨result, hresult⟩ := ask_returned hnumbered hs request
    have hfirst : (request.task a).run (recipes a) (resolve (recipes a) a.depth) s =
        (.returned result, (s.ask a request).2) := by
      rw [← hresult]
      rfl
    have hrest := ih _ (ask_tidy hnumbered hs request)
    have hone : Request.inTurn a (request :: requests) =
        Construction.Task.bind (Construction.Task.bind (request.task a).attempt fun _ => pure ())
          fun _ => Request.inTurn a requests := rfl
    rw [run, hone, Construction.Task.execute]
    rw [Construction.Task.run_bind, Construction.Task.run_bind, Construction.Task.run_attempt, hfirst]
    exact hrest

/-- A single client comes to a world that mirrors the session. -/
theorem askAll_follow (hnumbered : a.Numbered) (requests : List Request) :
    ∃ schedule, Mirrors (start.askAll a requests)
      ((Clients.start a [requests]).follow a schedule).world := by
  have hrun := run_inTurn hnumbered requests start (Regime.Tidy.start Emission.empty)
  obtain ⟨schedule, w, hfollow, hmirrors⟩ := Construction.Task.execute_follow hrun
  refine ⟨schedule, ?_⟩
  rw [Clients.follow, Clients.start, List.map_singleton, hfollow]
  exact hmirrors

end Session

end ShaderLowering
