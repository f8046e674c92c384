import ShaderLowering.Proofs.Threads.Confined

/-!
# What constructions deliver

What a construction ends with can often be told from what it is answered alone, whatever the state that
threads share and whoever else makes progress meanwhile.  `Task.Delivers` is the weakest precondition of a
task in that sense: its requests are answered with values that are `had` of their keys, its actions with
anything.

What holds of a task whatever it is answered can be said of all values with which it may end
(`Task.MayEnd`); a run ends with one of them, if it returns a value (`Task.mayEnd_of_run`).

Under a discipline a task that delivers ends with what it delivers in the light of all that has been noted by
then (`Discipline.Safe.delivers`).
-/

namespace ShaderLowering.Construction

variable {I : Interface} {σ α β : Type} {had : (k : I.Key) → I.Value k → Prop}

/-! ## Tasks that deliver -/

namespace Task

/-- A task neither looks into slots nor panics, and a value that it ends with is one of which `R` holds, as
long as what its requests are answered with is had of their keys. -/
def Delivers (had : (k : I.Key) → I.Value k → Prop) : Task I α → (α → Prop) → Prop
  | .done result, R => ∀ v, result = .ok v → R v
  | .panic, _ => False
  | .act _ next, R => ∀ answer, (next answer).Delivers had R
  | .peek _ _, _ => False
  | .request r next, R => (∀ v, had (I.key r) v → (next (.ok v)).Delivers had R) ∧
      ∀ e, (next (.error e)).Delivers had R

namespace Delivers

variable {t : Task I α} {f : α → Task I β} {R R' : α → Prop} {S : β → Prop}

theorem mono (ht : t.Delivers had R) (himp : ∀ v, R v → R' v) : t.Delivers had R' := by
  induction t with
  | done result => exact fun v hv => himp v (ht v hv)
  | panic => exact ht
  | act action next ih => exact fun answer => ih answer (ht answer)
  | peek k next => exact ht
  | request r next ih => exact ⟨fun v hv => ih _ (ht.1 v hv), fun e => ih _ (ht.2 e)⟩

theorem bind (ht : t.Delivers had R) (hf : ∀ v, R v → (f v).Delivers had S) :
    (t >>= f).Delivers had S := by
  change (t.bind f).Delivers had S
  induction t with
  | done result =>
    cases result with
    | ok v => exact hf v (ht v rfl)
    | error e => exact nofun
  | panic => exact ht
  | act action next ih => exact fun answer => ih answer (ht answer)
  | peek k next => exact ht
  | request r next ih => exact ⟨fun v hv => ih _ (ht.1 v hv), fun e => ih _ (ht.2 e)⟩

theorem pure {v : α} (hv : R v) : (Pure.pure v : Task I α).Delivers had R := by
  intro v' heq
  obtain rfl := Except.ok.inj heq
  exact hv

theorem fail (cause : I.Fault) : (Task.fail cause : Task I α).Delivers had R :=
  nofun

theorem ofOption (cause : I.Fault) (o : Option α) :
    (Task.ofOption cause o).Delivers had fun v => o = some v := by
  cases o with
  | none => exact fail cause
  | some v => exact pure rfl

theorem perform (action : I.Action) : (Task.perform action).Delivers had fun _ => True :=
  fun _ => pure trivial

theorem ask (r : I.Request) : (Task.ask r).Delivers had (had (I.key r)) :=
  ⟨fun _ hv => pure hv, fun _ => nofun⟩

/-- Of what a confined task ends with nothing need be known. -/
theorem of_confined {acts : I.Action → Prop} {asks : I.Request → Prop} (ht : t.Confined acts asks) :
    t.Delivers had fun _ => True := by
  induction ht with
  | done result => exact fun _ _ => trivial
  | act _ _ ih => exact ih
  | request _ _ ih => exact ⟨fun v _ => ih (.ok v), fun e => ih (.error e)⟩

theorem mapM {k : α → Task I β} (xs : List α) (hk : ∀ x ∈ xs, (k x).Delivers had S) :
    (xs.mapM k).Delivers had fun vs => vs.length = xs.length ∧ ∀ v ∈ vs, S v := by
  induction xs with
  | nil => exact pure ⟨rfl, nofun⟩
  | cons x xs ih =>
    rw [List.mapM_cons]
    refine .bind (hk x List.mem_cons_self) fun v hv => ?_
    refine .bind (ih fun x' hx' => hk x' (List.mem_cons_of_mem x hx')) fun vs ⟨hlength, hvs⟩ => ?_
    exact pure ⟨congrArg (· + 1) hlength, List.forall_mem_cons.mpr ⟨hv, hvs⟩⟩

end Delivers

end Task

/-! ## Tasks that may end -/

/-- The value that a run has returned. -/
def Outcome.value? {κ ε : Type} : Outcome κ (Except ε α) → Option α
  | .returned (.ok v) => some v
  | _ => none

namespace Task

/-- A task may end with a value: it does so for some answers to its actions and its requests, and for some
that it finds ready. -/
inductive MayEnd : Task I α → α → Prop
  | done (v : α) : MayEnd (.done (.ok v)) v
  | act {action : I.Action} {next : I.Answer action → Task I α} {v : α} (answer : I.Answer action)
      (h : MayEnd (next answer) v) : MayEnd (.act action next) v
  | peek {k : I.Key} {next : Option (I.Value k) → Task I α} {v : α} (found : Option (I.Value k))
      (h : MayEnd (next found) v) : MayEnd (.peek k next) v
  | request {r : I.Request} {next : Result I (I.Value (I.key r)) → Task I α} {v : α}
      (result : Result I (I.Value (I.key r))) (h : MayEnd (next result) v) : MayEnd (.request r next) v

/-- What goes on with the value of a task ends after it. -/
theorem MayEnd.of_bind {t : Task I α} {f : α → Task I β} {w : β} (h : (t >>= f).MayEnd w) :
    ∃ v, t.MayEnd v ∧ (f v).MayEnd w := by
  change (t.bind f).MayEnd w at h
  induction t with
  | done result =>
    cases result with
    | ok v => exact ⟨v, .done v, h⟩
    | error e => cases h
  | panic => cases h
  | act action next ih =>
    cases h with
    | act answer h => exact (ih answer h).imp fun v hv => hv.imp_left (.act answer)
  | peek k next ih =>
    cases h with
    | peek found h => exact (ih found h).imp fun v hv => hv.imp_left (.peek found)
  | request r next ih =>
    cases h with
    | request result h => exact (ih result h).imp fun v hv => hv.imp_left (.request result)

/-- A run that returns a value is one of the ways in which a task may end. -/
theorem mayEnd_of_run {recipes : Recipes I σ} {answer : Answerer I σ} {t : Task I α} {s : State I σ}
    {v : α} (h : (t.run recipes answer s).1.value? = some v) : t.MayEnd v := by
  induction t generalizing s with
  | done result =>
    cases result with
    | ok w =>
      obtain rfl : w = v := Option.some.inj h
      exact .done w
    | error e => cases h
  | panic => cases h
  | act action next ih => exact .act _ (ih _ h)
  | peek k next ih => exact .peek _ (ih _ h)
  | request r next ih =>
    rw [run] at h
    split at h
    · exact .request _ (ih _ h)
    · cases h
    · cases h

end Task

/-! ## Under a discipline -/

/-- A task that is safe under a discipline also ends with what it delivers, as long as what holds of answers
at any time is had from then on. -/
theorem Discipline.Safe.delivers {ν : Type} {D : Discipline I σ ν}
    {had : List (I.Key × ν) → (k : I.Key) → I.Value k → Prop} {goal : Goal I.Key}
    {h : List (I.Key × ν)} {t : Task I α} {Q : List (I.Key × ν) → Result I α → Prop}
    {R : List (I.Key × ν) → α → Prop} (hhad : ∀ h h' k v, h <+: h' → D.holds h k v → had h' k v)
    (hsafe : D.Safe goal h t Q) (hdelivers : ∀ h', h <+: h' → t.Delivers (had h') (R h')) :
    D.Safe goal h t fun h' result => Q h' result ∧ ∀ v, result = .ok v → R h' v := by
  induction t generalizing h with
  | done result =>
    exact fun h' s hlater => ⟨hsafe h' s hlater, hdelivers h' (prefix_of_relies hlater.relies)⟩
  | panic => exact (hdelivers h List.prefix_rfl).elim
  | act action next ih =>
    intro h' s hlater hwithin
    obtain ⟨l, hown, hinv, hnext⟩ := hsafe h' s hlater hwithin
    refine ⟨l, hown, hinv, ih _ hnext fun h'' hlonger => hdelivers h'' ?_ _⟩
    exact (prefix_of_relies hlater.relies).trans ((List.prefix_append _ l).trans hlonger)
  | peek k next => exact (hdelivers h List.prefix_rfl).elim
  | request r next ih =>
    intro h' s hlater hvouched
    obtain ⟨hknown, hallowed, hnext⟩ := hsafe h' s hlater hvouched
    refine ⟨hknown, hallowed, fun result hanswer => ih _ (hnext result hanswer) fun h'' hlonger => ?_⟩
    -- What held when the request was answered is had in every history from then on.
    have hrest := hdelivers h'' ((prefix_of_relies hlater.relies).trans hlonger)
    cases result with
    | ok v => exact hrest.1 v (hhad h' h'' _ v hlonger hanswer)
    | error e => exact hrest.2 e

end ShaderLowering.Construction
