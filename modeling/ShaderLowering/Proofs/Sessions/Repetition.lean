import ShaderLowering.Proofs.Sessions.Failures
import ShaderLowering.Proofs.Sessions.Types
import ShaderLowering.Proofs.Writings.Silent

/-!
# A repeated request changes nothing

A request that takes no id only looks things up once everything that it asks for is ready: it takes no
action of its own, it gives up with the first failure that it meets, and so, after it has been answered
once, all that it asked for stays ready (`Task.run_again`).  Whatever a session is asked for in between,
with success or without, the same request is answered alike and leaves the session as it was
(`Session.ask_repeat`): no id is taken, nothing is declared, annotated or exposed, and no slot is added or
changed.
-/

namespace ShaderLowering.Construction

variable {I : Interface} {σ α : Type} {recipes : Recipes I σ} {depth : Nat} {r : I.Request}
  {s s' s'' : State I σ}

/-- What is ready is answered at once. -/
theorem resolve_of_ready {v : I.Value (I.key r)} (hready : s.slots.get? (I.key r) = some (.ready v)) :
    resolve recipes (depth + 1) r s = (.returned (.ok v), s) := by
  simp only [resolve, hready]

/-- What a request is answered with is ready from then on. -/
theorem ready_of_resolve {v : I.Value (I.key r)}
    (h : resolve recipes depth r s = (.returned (.ok v), s')) :
    s'.slots.get? (I.key r) = some (.ready v) := by
  cases depth with
  | zero => cases h
  | succ depth =>
    rw [resolve] at h
    split at h
    case h_1 => cases h
    case h_2 w hready =>
      cases h
      exact hready
    case h_3 => cases h
    case h_4 =>
      rcases hrun : (recipes.factory r).run recipes (resolve recipes depth)
        (s.settle (I.key r) .building) with ⟨result | _ | _, s₁⟩ <;> rw [hrun] at h <;> cases h
      simp [State.settle, SlotState.ofResult]

/-- A task that takes no action and gives up with what it asks for, and that has ended with a value, ends
with it again and changes nothing, as long as what was ready then is ready still. -/
theorem Task.run_again {asks : I.Request → Prop} {asked had : I.Key → Prop} {bad : Prop} {R : α → Prop}
    {t : Task I α} {v : α} (hquiet : t.Confined (fun _ => False) asks)
    (hobeys : t.Obeys asked had bad R) (hhad : ∀ k, had k)
    (hrun : t.run recipes (resolve recipes (depth + 1)) s = (.returned (.ok v), s'))
    (hlater : s'.Within s'') :
    t.run recipes (resolve recipes (depth + 1)) s'' = (.returned (.ok v), s'') := by
  induction hquiet generalizing s with
  | done result =>
    cases hrun
    rfl
  | act hacts => exact hacts.elim
  | @request r next _ _ ih =>
    obtain ⟨-, hok, herror⟩ := hobeys
    rw [run] at hrun ⊢
    rcases hanswer : resolve recipes (depth + 1) r s with ⟨(e | w) | _ | _, s₁⟩ <;>
      rw [hanswer] at hrun
    · -- A failure is passed on, so it does not end with a value.
      dsimp only at hrun
      rw [herror e] at hrun
      cases hrun
    · dsimp only at hrun
      have hstays : s₁.Within s' := by
        have hrest : s₁.Within ((next (.ok w)).run recipes (resolve recipes (depth + 1)) s₁).2 :=
          within_run (within_resolve recipes (depth + 1)) _ s₁
        rwa [hrun] at hrest
      -- The value that was answered is ready at the end of the first run and so in the second.
      have hready := hlater _ w (hstays _ w (ready_of_resolve hanswer))
      rw [resolve_of_ready hready]
      exact ih _ (hok w (hhad _)) hrun
    · cases hrun
    · cases hrun

end ShaderLowering.Construction

namespace ShaderLowering

open Construction (Task State)
open Spirv

namespace Session

variable {a : Assembly} {s : Session} {request : Request} {reply : Reply}

/-- Whatever is asked for, what is ready stays ready. -/
theorem within_ask (a : Assembly) (s : Session) (request : Request) :
    s.Within (s.ask a request).2 :=
  Task.within_run (Construction.within_resolve (recipes a) a.depth) (request.task a) s

theorem within_askAll (a : Assembly) (requests : List Request) (s : Session) :
    s.Within (s.askAll a requests) := by
  induction requests generalizing s with
  | nil => exact .refl s
  | cons request requests ih => exact (within_ask a s request).trans (ih _)

/-- A request that has been answered is answered again, with what is ready. -/
theorem ask_again {s' s'' : Session} (hfresh : request ≠ .freshId)
    (hask : s.ask a request = (.returned (.ok reply), s')) (hlater : s'.Within s'') :
    s''.ask a request = (.returned (.ok reply), s'') := by
  have hdepth : a.depth = a.places.length + 1 + 1 := a.length_places.symm
  have hquiet : Task.Confined (I := lowering) (fun _ => False) (Askable a) (request.task a) :=
    confined_task a request fun heq => hfresh heq
  rw [ask, run, Task.execute, hdepth] at hask ⊢
  exact Task.run_again hquiet request.task_obeys (fun _ => trivial) hask hlater

/-- A request for an entity that has once been answered in a session is answered in the same way later on,
whatever has been asked for before and since, and leaves the session as it is: the ids that are issued,
the declarations, annotations and variables that are written, and every slot. -/
theorem ask_repeat (before since : List Request) (hfresh : request ≠ .freshId)
    (hok : ((start.askAll a before).ask a request).1 = .returned (.ok reply)) :
    (start.askAll a (before ++ request :: since)).ask a request =
      (.returned (.ok reply), start.askAll a (before ++ request :: since)) := by
  have hask : (start.askAll a before).ask a request =
      (.returned (.ok reply), ((start.askAll a before).ask a request).2) := Prod.ext hok rfl
  have hsplit : start.askAll a (before ++ request :: since) =
      (((start.askAll a before).ask a request).2).askAll a since := by
    rw [askAll, List.foldl_append]
    rfl
  rw [hsplit]
  exact ask_again hfresh hask (within_askAll a since _)

end Session

/-- What becomes of a method that calls nothing, after one that calls itself. -/
def calmFunction : Function where
  id := ⟨5⟩
  key := ⟨⟨1⟩, []⟩
  returnType := ⟨1⟩
  body := [Instruction.mk Op.function.code [1, 5, 0, 2], ⟨Op.label.code, [6]⟩,
    ⟨Op.functionEnd.code, []⟩].flatMap Instruction.encode
  callees := []

/-- After a method that calls itself, one that calls nothing is answered, and it is answered again after a
failure that both had a part in, another one, and an id that was taken. -/
theorem tangle_ask_repeat :
    let since : List Request := [.method ⟨3⟩, .method ⟨2⟩, .freshId]
    Request.method ⟨1⟩ ≠ .freshId ∧
      ((Session.start.askAll tangle [.method ⟨0⟩]).ask tangle (.method ⟨1⟩)).1 =
        .returned (.ok (.function calmFunction)) ∧
      (Session.start.askAll tangle ([.method ⟨0⟩] ++ .method ⟨1⟩ :: since)).ask tangle (.method ⟨1⟩) =
        (.returned (.ok (.function calmFunction)),
          Session.start.askAll tangle ([.method ⟨0⟩] ++ .method ⟨1⟩ :: since)) := by
  have hfresh : Request.method ⟨1⟩ ≠ .freshId := by decide
  have hok : ((Session.start.askAll tangle [.method ⟨0⟩]).ask tangle (.method ⟨1⟩)).1 =
      .returned (.ok (.function calmFunction)) := by decide +kernel
  exact ⟨hfresh, hok, Session.ask_repeat _ _ hfresh hok⟩

end ShaderLowering
