import ShaderLowering.Proofs.Sessions.Regime

/-!
# What holds in every state of one thread

An `Upkeep` is a property of states together with an order in which what is shared grows.
`Task.Arrives` is the weakest precondition of a task in a state: whenever the task ends with a value, that
value is as it should be in the state that the task ends in.  It knows of an answer only that it is ready
in a later state, in which the property holds.

If the property outlives the actions, and if it holds once the value of a factory is put into its slot,
then it holds in every state that a run comes to, whatever is requested and whether it succeeds or not
(`Upkeep.execute_keeps`).
-/

namespace ShaderLowering.Construction

variable {I : Interface} {σ α β : Type}

/-- A property of states that is kept up, and a preorder in which what is shared grows. -/
structure Upkeep (I : Interface) (σ : Type) where
  recipes : Recipes I σ
  inv : State I σ → Prop
  grows : σ → σ → Prop
  refl : ∀ e, grows e e
  trans : ∀ e e' e'', grows e e' → grows e' e'' → grows e e''

namespace Upkeep

variable (U : Upkeep I σ)

/-- A state comes later than another one: what is ready stays, what is being built still is, and what is
shared has grown. -/
structure Later (s s' : State I σ) : Prop where
  ready : s.Within s'
  building : ∀ k, s.slots.get? k = some .building → s'.slots.get? k = some .building
  shared : U.grows s.shared s'.shared

end Upkeep

namespace Task

/-- If a task ends with a value, begun in a state, then `R` holds of the value in the state at the end. -/
def Arrives (U : Upkeep I σ) : Task I α → State I σ → (α → State I σ → Prop) → Prop
  | .done (.ok v), s, R => R v s
  | .done (.error _), _, _ => True
  | .panic, _, _ => True
  | .act action next, s, R =>
    (next (U.recipes.act action s.shared).1).Arrives U
      { s with shared := (U.recipes.act action s.shared).2 } R
  | .peek key next, s, R => (next (s.ready? key)).Arrives U s R
  | .request r next, s, R => ∀ result s', U.Later s s' → U.inv s' →
      (∀ v, result = .ok v → s'.slots.get? (I.key r) = some (.ready v)) →
        (next result).Arrives U s' R

namespace Arrives

variable {U : Upkeep I σ} {t : Task I α} {f : α → Task I β} {s : State I σ}
  {R R' : α → State I σ → Prop} {S : β → State I σ → Prop}

theorem mono (ht : t.Arrives U s R) (himp : ∀ v s', R v s' → R' v s') : t.Arrives U s R' := by
  induction t generalizing s with
  | done result =>
    cases result with
    | ok v => exact himp v s ht
    | error e => trivial
  | panic => trivial
  | act action next ih => exact ih _ ht
  | peek key next ih => exact ih _ ht
  | request r next ih => exact fun result s' hlater hs' hready => ih _ (ht result s' hlater hs' hready)

theorem bind (ht : t.Arrives U s R) (hf : ∀ v s', R v s' → (f v).Arrives U s' S) :
    (t >>= f).Arrives U s S := by
  change (t.bind f).Arrives U s S
  induction t generalizing s with
  | done result =>
    cases result with
    | ok v => exact hf v s ht
    | error e => trivial
  | panic => trivial
  | act action next ih => exact ih _ ht
  | peek key next ih => exact ih _ ht
  | request r next ih => exact fun result s' hlater hs' hready => ih _ (ht result s' hlater hs' hready)

theorem pure {v : α} (hv : R v s) : (Pure.pure v : Task I α).Arrives U s R :=
  hv

theorem fail {cause : I.Fault} : (Task.fail cause : Task I α).Arrives U s R :=
  trivial

theorem ofOption {cause : I.Fault} {o : Option α} (ho : ∀ v, o = some v → R v s) :
    (Task.ofOption cause o).Arrives U s R := by
  cases o with
  | none => trivial
  | some v => exact ho v rfl

theorem ofOption_bind {cause : I.Fault} {o : Option α}
    (hf : ∀ v, o = some v → (f v).Arrives U s S) : (Task.ofOption cause o >>= f).Arrives U s S := by
  cases o with
  | none => trivial
  | some v => exact hf v rfl

theorem map {k : α → β} (ht : t.Arrives U s fun v s' => S (k v) s') : (k <$> t).Arrives U s S := by
  rw [← bind_pure_comp]
  exact ht.bind fun _ _ hv => .pure hv

theorem perform {action : I.Action} {R : I.Answer action → State I σ → Prop}
    (hR : R (U.recipes.act action s.shared).1
      { s with shared := (U.recipes.act action s.shared).2 }) :
    (Task.perform action).Arrives U s R :=
  hR

theorem ask {r : I.Request} {R : I.Value (I.key r) → State I σ → Prop}
    (hR : ∀ v s', U.Later s s' → U.inv s' → s'.slots.get? (I.key r) = some (.ready v) → R v s') :
    (Task.ask r).Arrives U s R := by
  intro result s' hlater hs' hready
  cases result with
  | ok v => exact hR v s' hlater hs' (hready v rfl)
  | error e => trivial

/-- A task of which nothing is asked. -/
theorem trivially (t : Task I α) (s : State I σ) : t.Arrives U s fun _ _ => True := by
  induction t generalizing s with
  | done result => cases result <;> trivial
  | panic => trivial
  | act action next ih => exact ih _ _
  | peek key next ih => exact ih _ _
  | request r next ih => exact fun result s' _ _ _ => ih result s'

end Arrives

end Task

namespace Upkeep

/-- The laws of an upkeep: the property outlives the actions and slots that are taken or fail, and it
holds once a factory's value is put into its slot. -/
structure Lawful (U : Upkeep I σ) : Prop where
  act : ∀ action s, U.inv s → U.inv { s with shared := (U.recipes.act action s.shared).2 } ∧
    U.grows s.shared (U.recipes.act action s.shared).2
  building : ∀ k s, U.inv s → s.slots.get? k = none → U.inv (s.settle k .building)
  failed : ∀ k s, U.inv s → s.slots.get? k = some .building → U.inv (s.settle k .failed)
  factory : ∀ r s, U.inv s → s.slots.get? (I.key r) = some .building →
    (U.recipes.factory r).Arrives U s fun v s' => U.inv s' →
      s'.slots.get? (I.key r) = some .building → U.inv (s'.settle (I.key r) (.ready v))

/-- What an answer to a request leaves behind. -/
structure Keeps (U : Upkeep I σ) (r : I.Request) (s : State I σ)
    (answer : Outcome I.Key (Result I (I.Value (I.key r))) × State I σ) : Prop where
  inv : U.inv answer.2
  later : U.Later s answer.2
  ready : ∀ v, answer.1 = .returned (.ok v) → answer.2.slots.get? (I.key r) = some (.ready v)

variable {U : Upkeep I σ} {s s' s'' : State I σ}

theorem Later.refl (s : State I σ) : U.Later s s :=
  ⟨.refl s, fun _ hbuilding => hbuilding, U.refl _⟩

theorem Later.trans (h : U.Later s s') (h' : U.Later s' s'') : U.Later s s'' :=
  ⟨h.ready.trans h'.ready, fun k hk => h'.building k (h.building k hk),
    U.trans _ _ _ h.shared h'.shared⟩

/-- A run of a task keeps the property up if the answers to its requests do. -/
theorem run_keeps (hU : U.Lawful) {answer : Answerer I σ}
    (hanswer : ∀ r s, U.inv s → U.Keeps r s (answer r s)) {t : Task I α} {R : α → State I σ → Prop}
    (hs : U.inv s) (ht : t.Arrives U s R) :
    U.inv (t.run U.recipes answer s).2 ∧ U.Later s (t.run U.recipes answer s).2 ∧
      ∀ v, (t.run U.recipes answer s).1 = .returned (.ok v) → R v (t.run U.recipes answer s).2 := by
  induction t generalizing s with
  | done result =>
    refine ⟨hs, .refl s, fun v hv => ?_⟩
    obtain rfl := Outcome.returned.inj hv
    exact ht
  | panic => exact ⟨hs, .refl s, fun v hv => by cases hv⟩
  | act action next ih =>
    obtain ⟨hs', hgrows⟩ := hU.act action s hs
    obtain ⟨hinv, hlater, hends⟩ := ih _ hs' ht
    have hfirst : U.Later s { s with shared := (U.recipes.act action s.shared).2 } :=
      ⟨fun _ _ hready => hready, fun _ hbuilding => hbuilding, hgrows⟩
    exact ⟨hinv, hfirst.trans hlater, hends⟩
  | peek key next ih => exact ih _ hs ht
  | request r next ih =>
    obtain ⟨hs', hlater, hready⟩ := hanswer r s hs
    rw [Task.run]
    rcases hresult : answer r s with ⟨result | _ | _, s'⟩ <;> rw [hresult] at hs' hlater hready
    · have hnext : (next result).Arrives U s' R :=
        ht result s' hlater hs' fun v hv => hready v (congrArg Outcome.returned hv)
      obtain ⟨hinv, hlater', hends⟩ := ih result hs' hnext
      exact ⟨hinv, hlater.trans hlater', hends⟩
    · exact ⟨hs', hlater, fun v hv => by cases hv⟩
    · exact ⟨hs', hlater, fun v hv => by cases hv⟩

/-- What comes later than a state with a slot taken comes later than the state before. -/
theorem Later.of_building {k : I.Key} (hnew : s.slots.get? k = none)
    (h : U.Later (s.settle k .building) s') : U.Later s s' := by
  have hbefore : s.Within (s.settle k .building) :=
    .settle (fun v => by rw [hnew]; exact nofun) (.refl s) _
  refine ⟨hbefore.trans h.ready, fun k' hk' => h.building k' ?_, h.shared⟩
  have hne : k' ≠ k := by
    rintro rfl
    rw [hnew] at hk'
    cases hk'
  rw [State.settle, Table.get?_set_of_ne hne]
  exact hk'

/-- To settle a slot that was free leaves a later state. -/
theorem Later.settle {k : I.Key} (hnew : s.slots.get? k = none) (h : U.Later s s')
    (slot : SlotState (I.Value k)) : U.Later s (s'.settle k slot) := by
  refine ⟨.settle (fun v => by rw [hnew]; exact nofun) h.ready slot, fun k' hk' => ?_, h.shared⟩
  have hne : k' ≠ k := by
    rintro rfl
    rw [hnew] at hk'
    cases hk'
  rw [State.settle, Table.get?_set_of_ne hne]
  exact h.building k' hk'

/-- A request keeps the property up. -/
theorem resolve_keeps (hU : U.Lawful) (depth : Nat) (r : I.Request) (hs : U.inv s) :
    U.Keeps r s (resolve U.recipes depth r s) := by
  induction depth generalizing r s with
  | zero => exact ⟨hs, .refl s, fun v hv => by cases hv⟩
  | succ depth ih =>
    rw [resolve]
    set k := I.key r with hk
    split
    · exact ⟨hs, .refl s, fun v hv => by cases hv⟩
    · next v hready =>
      refine ⟨hs, .refl s, fun v' hv' => ?_⟩
      obtain rfl := Except.ok.inj (Outcome.returned.inj hv')
      exact hready
    · exact ⟨hs, .refl s, fun v hv => by cases hv⟩
    · next hnew =>
      have hself : (s.settle k .building).slots.get? k = some .building := by
        rw [State.settle, Table.get?_set_self]
      have hstart := hU.building k s hs hnew
      obtain ⟨hinv, hlater, hends⟩ := run_keeps hU (fun r s hs => ih r hs) hstart
        (hU.factory r _ hstart hself)
      rcases hrun : (U.recipes.factory r).run U.recipes (resolve U.recipes depth)
        (s.settle k .building) with ⟨(e | v) | _ | _, s₁⟩ <;> rw [hrun] at hinv hlater hends
      case returned.ok =>
        have hright := hends v rfl hinv (hlater.building k hself)
        refine ⟨hright, (hlater.of_building hnew).settle hnew _, fun v' hv' => ?_⟩
        obtain rfl := Except.ok.inj (Outcome.returned.inj hv')
        exact Table.get?_set_self ..
      case exhausted => exact ⟨hinv, hlater.of_building hnew, fun v hv => by cases hv⟩
      -- An error and a panic both leave the slot failed.
      all_goals
        have hfailed := hU.failed k s₁ hinv (hlater.building k hself)
        exact ⟨hfailed, (hlater.of_building hnew).settle hnew _, fun v hv => by cases hv⟩

/-- A task that is carried out on its own keeps the property up. -/
theorem execute_keeps (hU : U.Lawful) {t : Task I α} {R : α → State I σ → Prop} (depth : Nat)
    (hs : U.inv s) (ht : t.Arrives U s R) :
    U.inv (t.execute U.recipes depth s).2 ∧ U.Later s (t.execute U.recipes depth s).2 ∧
      ∀ v, (t.execute U.recipes depth s).1 = .returned (.ok v) →
        R v (t.execute U.recipes depth s).2 :=
  run_keeps hU (fun r _ hs => resolve_keeps hU depth r hs) hs ht

/-- Tasks for the members of a list are carried out one after another; what holds of a value goes on
holding. -/
theorem arrives_mapM {xs : List α} {k : α → Task I β} {P : α → β → State I σ → Prop}
    (hP : ∀ {x v s s'}, U.Later s s' → P x v s → P x v s')
    (hk : ∀ x ∈ xs, ∀ s, U.inv s → (k x).Arrives U s fun v s' => U.inv s' ∧ U.Later s s' ∧ P x v s')
    (hs : U.inv s) : (xs.mapM k).Arrives U s fun vs s' => U.inv s' ∧ U.Later s s' ∧
      List.Forall₂ (fun x v => P x v s') xs vs := by
  induction xs generalizing s with
  | nil => exact .pure ⟨hs, .refl s, .nil⟩
  | cons x xs ih =>
    rw [List.mapM_cons]
    refine .bind (hk x List.mem_cons_self s hs) fun v s₁ ⟨hs₁, hlater, hv⟩ => ?_
    refine .bind (ih (fun x' hx' => hk x' (List.mem_cons_of_mem x hx')) hs₁)
      fun vs s₂ ⟨hs₂, hlater', hvs⟩ => ?_
    exact .pure ⟨hs₂, hlater.trans hlater', .cons (hP hlater' hv) hvs⟩

end Upkeep

end ShaderLowering.Construction
