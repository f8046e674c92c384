import ShaderLowering.Lowering.Clients
import ShaderLowering.Proofs.Threads.Discipline

/-!
# Confined tasks

Most of what a construction does is to ask for other entities.  A task is `Confined` if its own actions
and requests are of a certain kind, whatever it is answered.  Under a discipline that such actions do
not disturb a confined task is safe, without anything having to be said of its steps (`Confined.safe`).
-/

namespace ShaderLowering.Construction

variable {I : Interface} {σ ν α β : Type}

namespace Task

/-- A task takes certain actions and makes certain requests only, and neither looks into slots nor
panics. -/
inductive Confined (acts : I.Action → Prop) (asks : I.Request → Prop) : Task I α → Prop
  | done (result : Result I α) : Confined acts asks (.done result)
  | act {action : I.Action} {next : I.Answer action → Task I α} (hacts : acts action)
      (hnext : ∀ answer, Confined acts asks (next answer)) : Confined acts asks (.act action next)
  | request {r : I.Request} {next : Result I (I.Value (I.key r)) → Task I α} (hasks : asks r)
      (hnext : ∀ result, Confined acts asks (next result)) : Confined acts asks (.request r next)

namespace Confined

variable {acts : I.Action → Prop} {asks : I.Request → Prop} {t : Task I α} {f : α → Task I β}

theorem bind (ht : t.Confined acts asks) (hf : ∀ v, (f v).Confined acts asks) :
    (t >>= f).Confined acts asks := by
  change (t.bind f).Confined acts asks
  induction ht with
  | done result =>
    cases result with
    | ok v => exact hf v
    | error e => exact .done _
  | act hacts _ ih => exact .act hacts ih
  | request hasks _ ih => exact .request hasks ih

theorem pure (v : α) : (Pure.pure v : Task I α).Confined acts asks :=
  .done _

theorem fail (cause : I.Fault) : (Task.fail cause : Task I α).Confined acts asks :=
  .done _

theorem ofOption (cause : I.Fault) (o : Option α) : (Task.ofOption cause o).Confined acts asks := by
  cases o <;> exact .done _

theorem map (ht : t.Confined acts asks) (k : α → β) : (k <$> t).Confined acts asks := by
  rw [← bind_pure_comp]
  exact ht.bind fun v => .pure (k v)

theorem mapM {γ : Type} {k : γ → Task I α} (xs : List γ) (hk : ∀ x, (k x).Confined acts asks) :
    (xs.mapM k).Confined acts asks := by
  induction xs with
  | nil => exact .pure []
  | cons x xs ih =>
    rw [List.mapM_cons]
    exact (hk x).bind fun v => ih.bind fun vs => .pure (v :: vs)

theorem forM {γ : Type} {k : γ → Task I PUnit} (xs : List γ)
    (hk : ∀ x, (k x).Confined acts asks) : (xs.forM k).Confined acts asks := by
  induction xs with
  | nil => exact .pure _
  | cons x xs ih => exact (hk x).bind fun _ => ih

theorem perform {action : I.Action} (hacts : acts action) :
    (Task.perform action).Confined acts asks :=
  .act hacts fun _ => .done _

theorem ask {r : I.Request} (hasks : asks r) : (Task.ask r).Confined acts asks :=
  .request hasks fun _ => .done _

theorem attempt (ht : t.Confined acts asks) : t.attempt.Confined acts asks := by
  induction ht with
  | done result => exact .done _
  | act hacts _ ih => exact .act hacts ih
  | request hasks _ ih => exact .request hasks ih

/-- A confined task is safe if its actions keep the shared state in order without any notes, and its
requests are allowed. -/
theorem safe {D : Discipline I σ ν} {g : Goal I.Key} {h : List (I.Key × ν)}
    {Q : List (I.Key × ν) → Result I α → Prop} (ht : t.Confined acts asks)
    (hacts : ∀ action, acts action → ∀ h s, D.inv h s → D.inv h (D.recipes.act action s).2)
    (hasks : ∀ r, asks r → ∀ h, D.Vouched g h (I.key r) →
      D.known h (I.key r) ∧ D.Allows g (I.key r))
    (hQ : ∀ h' r, Discipline.Relies g h h' → Q h' r) : D.Safe g h t Q := by
  induction ht generalizing h with
  | done result => exact fun h' s hlater => hQ h' result hlater.relies
  | act hact _ ih =>
    intro h' s hlater _
    refine ⟨[], nofun, ?_, ?_⟩
    · rw [List.append_nil]
      exact hacts _ hact h' s hlater.inv
    · rw [List.append_nil]
      exact ih _ fun h'' r hrelies => hQ h'' r (hlater.relies.trans hrelies)
  | request hask _ ih =>
    intro h' s hlater hvouched
    obtain ⟨hknown, hallowed⟩ := hasks _ hask h' hvouched
    exact ⟨hknown, hallowed, fun result _ =>
      ih result fun h'' r hrelies => hQ h'' r (hlater.relies.trans hrelies)⟩

end Confined

end Task

end ShaderLowering.Construction
