import Mathlib.Data.List.Chain
import Mathlib.Logic.Relation
import ShaderLowering.Construction.Resolve

/-!
# What becomes of requests on one thread

A `Regime` says of each key which keys its construction may ask for, whether it is `good`, that is, can
be constructed, and whether something is `wrong` with it or with what it asks for.  `Task.Obeys` is the
weakest precondition of a task in a regime: it asks only for what it may, never panics, gives up as soon
as a request fails, and fails of its own accord only if something is wrong.

If the factories obey then a request is answered with a value if and only if its key is good
(`Regime.resolve_ends`), whatever has been requested before: a slot that is ready or has failed belongs to
a key that is good or is not (`Regime.Tidy`).  A failure says where it comes from (`Regime.Explains`): a
cyclic construction is one of a key that does ask for itself.  Nothing is panicked, and nothing is
exhausted as long as no chain of different keys that ask for each other is as long as the depth.
-/

namespace ShaderLowering.Construction

open Relation (ReflTransGen TransGen)

variable {I : Interface} {σ α β : Type}

/-! ## Values stay -/

/-- What is ready in a state is ready in another. -/
def State.Within (s s' : State I σ) : Prop :=
  ∀ k v, s.slots.get? k = some (.ready v) → s'.slots.get? k = some (.ready v)

namespace State

variable {s s' s'' : State I σ}

theorem Within.refl (s : State I σ) : s.Within s :=
  fun _ _ hready => hready

theorem Within.trans (h : s.Within s') (h' : s'.Within s'') : s.Within s'' :=
  fun k v hready => h' k v (h k v hready)

/-- To settle a slot that is not ready keeps what is ready. -/
theorem Within.settle {k : I.Key} (hnew : ∀ v, s.slots.get? k ≠ some (.ready v))
    (h : s.Within s') (slot : SlotState (I.Value k)) : s.Within (s'.settle k slot) := by
  intro k' v hready
  have hne : k' ≠ k := by
    rintro rfl
    exact hnew v hready
  rw [State.settle, Table.get?_set_of_ne hne]
  exact h k' v hready

end State

/-- A run keeps what is ready if the answers to its requests do. -/
theorem Task.within_run {recipes : Recipes I σ} {answer : Answerer I σ}
    (hanswer : ∀ r (s : State I σ), s.Within (answer r s).2) (t : Task I α) (s : State I σ) :
    s.Within (t.run recipes answer s).2 := by
  induction t generalizing s with
  | done result => exact .refl s
  | panic => exact .refl s
  | act action next ih => exact ih _ { s with shared := (recipes.act action s.shared).2 }
  | peek key next ih => exact ih _ s
  | request r next ih =>
    have hfirst := hanswer r s
    rw [run]
    rcases hresult : answer r s with ⟨_ | _ | _, s'⟩ <;> rw [hresult] at hfirst
    · exact hfirst.trans (ih _ s')
    · exact hfirst
    · exact hfirst

theorem within_conclude {k : I.Key} {s s' : State I σ} (hnew : s.slots.get? k = none)
    (h : s.Within s') (o : Outcome I.Key (Result I (I.Value k))) :
    s.Within (conclude k (o, s')).2 := by
  have hsettle : ∀ slot, s.Within (s'.settle k slot) := fun slot =>
    .settle (fun v => by rw [hnew]; exact nofun) h slot
  cases o with
  | returned result => exact hsettle _
  | panicked unwound => exact hsettle _
  | exhausted => exact h

/-- A request keeps what is ready. -/
theorem within_resolve (recipes : Recipes I σ) (depth : Nat) (r : I.Request) (s : State I σ) :
    s.Within (resolve recipes depth r s).2 := by
  induction depth generalizing r s with
  | zero => exact .refl s
  | succ depth ih =>
    rw [resolve]
    split
    · exact .refl s
    · exact .refl s
    · exact .refl s
    · next hnew =>
      refine within_conclude hnew ?_ _
      have hbuilding : s.Within (s.settle (I.key r) .building) :=
        .settle (fun v => by rw [hnew]; exact nofun) (.refl s) _
      exact hbuilding.trans (Task.within_run (fun r s => ih r s) _ _)

/-! ## Tasks that obey -/

namespace Task

/-- A task asks only for keys that it may ask for, gives up with the failure of a request that fails,
fails of its own accord only if something is bad, does not panic, and ends with a value of which `R`
holds, provided that `had` holds of the keys that it has asked for. -/
def Obeys (asked had : I.Key → Prop) (bad : Prop) : Task I α → (α → Prop) → Prop
  | .done (.ok v), R => R v
  | .done (.error e), _ => bad ∧ ∃ cause, e = .fault cause
  | .panic, _ => False
  | .act _ next, R => ∀ answer, (next answer).Obeys asked had bad R
  | .peek _ _, _ => False
  | .request r next, R => asked (I.key r) ∧
      (∀ v, had (I.key r) → (next (.ok v)).Obeys asked had bad R) ∧
      ∀ e, next (.error e) = .done (.error e)

namespace Obeys

variable {asked had : I.Key → Prop} {bad : Prop} {t : Task I α} {f : α → Task I β}
  {R R' : α → Prop} {S : β → Prop}

theorem mono (ht : t.Obeys asked had bad R) (himp : ∀ v, R v → R' v) :
    t.Obeys asked had bad R' := by
  induction t with
  | done result =>
    cases result with
    | ok v => exact himp v ht
    | error e => exact ht
  | panic => exact ht
  | act action next ih => exact fun answer => ih answer (ht answer)
  | peek key next => exact ht
  | request r next ih => exact ⟨ht.1, fun v hv => ih _ (ht.2.1 v hv), ht.2.2⟩

/-- A task that obeys still does if it may ask for more or if more is bad. -/
theorem weaken {asked' : I.Key → Prop} {bad' : Prop} (hasked : ∀ k, asked k → asked' k)
    (hbad : bad → bad') (ht : t.Obeys asked had bad R) : t.Obeys asked' had bad' R := by
  induction t with
  | done result =>
    cases result with
    | ok v => exact ht
    | error e => exact ht.imp_left hbad
  | panic => exact ht
  | act action next ih => exact fun answer => ih answer (ht answer)
  | peek k next => exact ht
  | request r next ih => exact ⟨hasked _ ht.1, fun v hv => ih _ (ht.2.1 v hv), ht.2.2⟩

theorem bind (ht : t.Obeys asked had bad R) (hf : ∀ v, R v → (f v).Obeys asked had bad S) :
    (t >>= f).Obeys asked had bad S := by
  change (t.bind f).Obeys asked had bad S
  induction t with
  | done result =>
    cases result with
    | ok v => exact hf v ht
    | error e => exact ht
  | panic => exact ht
  | act action next ih => exact fun answer => ih answer (ht answer)
  | peek key next => exact ht
  | request r next ih =>
    exact ⟨ht.1, fun v hv => ih _ (ht.2.1 v hv), fun e => congrArg (Task.bind · f) (ht.2.2 e)⟩

theorem pure {v : α} (hv : R v) : (Pure.pure v : Task I α).Obeys asked had bad R :=
  hv

theorem fail {cause : I.Fault} (hbad : bad) : (Task.fail cause : Task I α).Obeys asked had bad R :=
  ⟨hbad, cause, rfl⟩

theorem ofOption {cause : I.Fault} {o : Option α} (hbad : o = none → bad) :
    (Task.ofOption cause o).Obeys asked had bad fun v => o = some v := by
  cases o with
  | none => exact .fail (hbad rfl)
  | some v => exact .pure rfl

theorem map {k : α → β} (ht : t.Obeys asked had bad fun v => S (k v)) :
    (k <$> t).Obeys asked had bad S := by
  rw [← bind_pure_comp]
  exact ht.bind fun _ hv => .pure hv

/-- Tasks for the members of a list are carried out one after another. -/
theorem mapM {xs : List α} {k : α → Task I β} {P : α → β → Prop}
    (hk : ∀ x ∈ xs, (k x).Obeys asked had bad (P x)) :
    (xs.mapM k).Obeys asked had bad fun vs => List.Forall₂ P xs vs := by
  induction xs with
  | nil => exact .pure .nil
  | cons x xs ih =>
    rw [List.mapM_cons]
    refine .bind (hk x List.mem_cons_self) fun v hv => ?_
    exact .bind (ih fun x' hx' => hk x' (List.mem_cons_of_mem x hx')) fun vs hvs => .pure (.cons hv hvs)

theorem forM {xs : List α} {k : α → Task I PUnit} {C : α → Prop}
    (hk : ∀ x ∈ xs, (k x).Obeys asked had bad fun _ => C x) :
    (xs.forM k).Obeys asked had bad fun _ => ∀ x ∈ xs, C x := by
  induction xs with
  | nil => exact .pure nofun
  | cons x xs ih =>
    refine .bind (hk x List.mem_cons_self) fun _ hx => ?_
    exact .mono (ih fun x' hx' => hk x' (List.mem_cons_of_mem x hx')) fun _ hxs =>
      List.forall_mem_cons.mpr ⟨hx, hxs⟩

theorem perform (action : I.Action) : (Task.perform action).Obeys asked had bad fun _ => True :=
  fun _ => trivial

theorem ask {r : I.Request} (hasked : asked (I.key r)) :
    (Task.ask r).Obeys asked had bad fun _ => had (I.key r) :=
  ⟨hasked, fun _ hhad => hhad, fun _ => rfl⟩

end Obeys

end Task

/-! ## Regimes -/

/-- Which keys may be asked for at all and which by the construction of a key, which keys can be
constructed, and with which something is wrong, be it with what they ask for. -/
structure Regime (I : Interface) (σ : Type) where
  recipes : Recipes I σ
  known : I.Key → Prop
  asks : I.Key → I.Key → Prop
  good : I.Key → Prop
  wrong : I.Key → Prop

namespace Regime

variable (D : Regime I σ)

/-- The laws of a regime: what is asked for is known, what a good key asks for is good, nothing is wrong
with a good key, a key that asks for itself is not good, and the factory of a known key obeys and ends only
if the key is good. -/
structure Lawful : Prop where
  known_of_asks : ∀ k k', D.asks k k' → D.known k'
  good_of_asks : ∀ k k', D.asks k k' → D.good k → D.good k'
  not_good_of_wrong : ∀ k, D.wrong k → ¬D.good k
  not_good_of_cycle : ∀ k, TransGen D.asks k k → ¬D.good k
  factory : ∀ r, D.known (I.key r) → (D.recipes.factory r).Obeys (D.asks (I.key r)) D.good
    (D.wrong (I.key r)) fun _ => D.good (I.key r)

/-- The keys that are being built, the last one first: each is asked for by the one before it. -/
def Chain (stack : List I.Key) : Prop :=
  stack.IsChain fun k' k => D.asks k k'

/-- No chain of different keys is longer. -/
def Bounded (bound : Nat) : Prop :=
  ∀ stack, D.Chain stack → stack.Nodup → stack.length ≤ bound

/-- The slots of a state say what is being built, and whether keys are good. -/
structure Tidy (stack : List I.Key) (s : State I σ) : Prop where
  building : ∀ k, s.slots.get? k = some .building ↔ k ∈ stack
  ready : ∀ k v, s.slots.get? k = some (.ready v) → D.good k
  failed : ∀ k, s.slots.get? k = some .failed → ¬D.good k

/-- Why something fails that asks for keys in a state: a cyclic construction is of a key that asks for
itself, a construction that was given up before had been given up by then, and a fault is one of what
fails or of a key that is asked for, directly or not. -/
def Explains (asked : I.Key → Prop) (bad : Prop) (s : State I σ) :
    Failure I.Key I.Fault → Prop
  | .cyclic k' => TransGen D.asks k' k' ∧ ∃ k, asked k ∧ ReflTransGen D.asks k k'
  | .poisoned k' => s.slots.get? k' = some .failed
  | .fault _ => bad ∨ ∃ k k', asked k ∧ ReflTransGen D.asks k k' ∧ D.wrong k'

/-- How a run ends that begins in a state. -/
def Ends (stack : List I.Key) (asked : I.Key → Prop) (bad : Prop) (s : State I σ)
    (R : α → State I σ → Prop) : Outcome I.Key (Result I α) × State I σ → Prop
  | (.returned (.ok v), s') => D.Tidy stack s' ∧
      (∀ k, s'.slots.get? k = some .failed → s.slots.get? k = some .failed) ∧ R v s'
  | (.returned (.error e), s') => D.Tidy stack s' ∧ (bad ∨ ∃ k, asked k ∧ ¬D.good k) ∧
      D.Explains asked bad s e
  | (.panicked _, _) => False
  | (.exhausted, _) => False

variable {D} {stack : List I.Key} {asked : I.Key → Prop} {bad : Prop} {s s' : State I σ}

theorem Tidy.start (shared : σ) : D.Tidy [] (State.start shared) := by
  constructor <;> simp [State.start]

/-- However a run ends, the slots are in order. -/
theorem Ends.tidy {R : α → State I σ → Prop} {ending : Outcome I.Key (Result I α) × State I σ}
    (h : D.Ends stack asked bad s R ending) : D.Tidy stack ending.2 := by
  rcases ending with ⟨(e | v) | _ | _, s'⟩
  · exact h.1
  · exact h.1
  · exact h.elim
  · exact h.elim

theorem Explains.trans {s₀ : State I σ} {e : Failure I.Key I.Fault} (h : D.Explains asked bad s e)
    (hfailed : ∀ k, s.slots.get? k = some .failed → s₀.slots.get? k = some .failed) :
    D.Explains asked bad s₀ e := by
  cases e with
  | cyclic k => exact h
  | poisoned k => exact hfailed k h
  | fault cause => exact h

/-- A run of a task that obeys ends as the answers to its requests let it. -/
theorem run_ends {answer : Answerer I σ} {had : I.Key → Prop} {t : Task I α} {R : α → Prop}
    (hanswer : ∀ r s, asked (I.key r) → D.Tidy stack s →
      D.Ends stack (· = I.key r) False s
        (fun v s' => D.good (I.key r) ∧ s'.slots.get? (I.key r) = some (.ready v)) (answer r s))
    (hwithin : ∀ r (s : State I σ), s.Within (answer r s).2)
    (ht : t.Obeys asked had bad R) (hs : D.Tidy stack s)
    (hhad : ∀ k v, D.good k → (t.run D.recipes answer s).2.slots.get? k = some (.ready v) → had k) :
    D.Ends stack asked bad s (fun v _ => R v) (t.run D.recipes answer s) := by
  induction t generalizing s with
  | done result =>
    cases result with
    | ok v => exact ⟨hs, fun _ hfailed => hfailed, ht⟩
    | error e =>
      obtain ⟨hbad, cause, rfl⟩ := ht
      exact ⟨hs, .inl hbad, .inl hbad⟩
  | panic => exact ht
  | act action next ih =>
    have hs' : D.Tidy stack { s with shared := (D.recipes.act action s.shared).2 } :=
      ⟨hs.building, hs.ready, hs.failed⟩
    exact ih _ (ht _) hs' hhad
  -- A task that obeys never peeks at a slot: it asks and waits for the answer.
  | peek key next => exact ht.elim
  | request r next ih =>
    obtain ⟨hasked, hok, herror⟩ := ht
    have hends := hanswer r s hasked hs
    rw [Task.run] at hhad ⊢
    rcases hresult : answer r s with ⟨result | _ | _, s₁⟩ <;> rw [hresult] at hends hhad
    · cases result with
      | ok v =>
        obtain ⟨hs₁, hfailed, hgood, hready⟩ := hends
        -- The value that was answered stays in its slot to the end of the run, so it is had.
        have hlater : s₁.Within ((next (.ok v)).run D.recipes answer s₁).2 :=
          Task.within_run hwithin _ s₁
        have hrest := ih _ (hok v (hhad _ v hgood (hlater _ v hready))) hs₁ hhad
        dsimp only at hrest ⊢
        rcases hrun : (next (.ok v)).run D.recipes answer s₁ with ⟨(_ | _) | _ | _, s₂⟩ <;>
          rw [hrun] at hrest
        · exact ⟨hrest.1, hrest.2.1, hrest.2.2.trans hfailed⟩
        · exact ⟨hrest.1, fun k hk => hfailed k (hrest.2.1 k hk), hrest.2.2⟩
        · exact hrest
        · exact hrest
      | error e =>
        dsimp only
        rw [herror e]
        obtain ⟨hs₁, hreason, hexplains⟩ := hends
        obtain ⟨k, rfl, hno⟩ := hreason.resolve_left id
        refine ⟨hs₁, .inr ⟨_, hasked, hno⟩, ?_⟩
        cases e with
        | cyclic k' =>
          obtain ⟨hcycle, k, rfl, hpath⟩ := hexplains
          exact ⟨hcycle, _, hasked, hpath⟩
        | poisoned k' => exact hexplains
        | fault cause =>
          obtain ⟨k, k', rfl, hpath, hwrong⟩ := hexplains.resolve_left id
          exact .inr ⟨_, k', hasked, hpath, hwrong⟩
    · exact hends
    · exact hends

/-- A chain that is led to leads on to what is in it. -/
theorem reflTransGen_of_mem {k k' : I.Key} (hchain : D.Chain (k' :: stack)) (hk : k ∈ k' :: stack) :
    ReflTransGen D.asks k k' := by
  induction stack generalizing k' with
  | nil =>
    obtain rfl := List.mem_singleton.mp hk
    exact .refl
  | cons next stack ih =>
    obtain ⟨hasks, hchain⟩ := List.isChain_cons_cons.mp hchain
    rcases List.mem_cons.mp hk with rfl | hk
    · exact .refl
    · exact .tail (ih hchain hk) hasks

/-- A key that is being built and is asked for again asks for itself. -/
theorem cycle_of_mem {k : I.Key} (hchain : D.Chain (k :: stack)) (hk : k ∈ stack) :
    TransGen D.asks k k := by
  cases stack with
  | nil => cases hk
  | cons next stack =>
    obtain ⟨hasks, hchain⟩ := List.isChain_cons_cons.mp hchain
    exact .tail' (reflTransGen_of_mem hchain hk) hasks

/-- A slot is taken for what is about to be built. -/
theorem Tidy.settle_building {k : I.Key} (hs : D.Tidy stack s) :
    D.Tidy (k :: stack) (s.settle k .building) := by
  constructor
  · intro k'
    rw [List.mem_cons, ← hs.building k']
    by_cases hsame : k' = k
    · subst hsame
      simp [State.settle]
    · simp [State.settle, Table.get?_set_of_ne hsame, hsame]
  · intro k' v hready
    by_cases hsame : k' = k
    · subst hsame
      simp [State.settle] at hready
    · rw [State.settle, Table.get?_set_of_ne hsame] at hready
      exact hs.ready k' v hready
  · intro k' hfailed
    by_cases hsame : k' = k
    · subst hsame
      simp [State.settle] at hfailed
    · rw [State.settle, Table.get?_set_of_ne hsame] at hfailed
      exact hs.failed k' hfailed

/-- The slot of what has been built is settled, rightly. -/
theorem Tidy.settle_result {k : I.Key} {slot : SlotState (I.Value k)} (hs : D.Tidy (k :: stack) s)
    (hnew : k ∉ stack) (hbuilding : slot ≠ .building) (hready : ∀ v, slot = .ready v → D.good k)
    (hfailed : slot = .failed → ¬D.good k) : D.Tidy stack (s.settle k slot) := by
  constructor
  · intro k'
    by_cases hsame : k' = k
    · subst hsame
      simp [State.settle, hbuilding, hnew]
    · have hiff := hs.building k'
      rw [List.mem_cons, or_iff_right hsame] at hiff
      rw [State.settle, Table.get?_set_of_ne hsame, hiff]
  · intro k' v hv
    by_cases hsame : k' = k
    · subst hsame
      rw [State.settle, Table.get?_set_self] at hv
      exact hready v (Option.some.inj hv)
    · rw [State.settle, Table.get?_set_of_ne hsame] at hv
      exact hs.ready k' v hv
  · intro k' hk'
    by_cases hsame : k' = k
    · subst hsame
      rw [State.settle, Table.get?_set_self] at hk'
      exact hfailed (Option.some.inj hk')
    · rw [State.settle, Table.get?_set_of_ne hsame] at hk'
      exact hs.failed k' hk'

/-- What explains the failure of a factory explains that of the request that it was run for. -/
theorem Explains.factory {k : I.Key} {e : Failure I.Key I.Fault} (hnew : s.slots.get? k = none)
    (hfailed : s'.slots.get? k ≠ some .failed)
    (hsame : ∀ k', k' ≠ k → s'.slots.get? k' = s.slots.get? k')
    (h : D.Explains (D.asks k) (D.wrong k) s' e) : D.Explains (· = k) False s e := by
  cases e with
  | cyclic k' =>
    obtain ⟨hcycle, k₁, hasks, hpath⟩ := h
    exact ⟨hcycle, k, rfl, .head hasks hpath⟩
  | poisoned k' =>
    have hne : k' ≠ k := by
      rintro rfl
      exact hfailed h
    exact (hsame k' hne).symm.trans h
  | fault cause =>
    right
    rcases h with hwrong | ⟨k₁, k', hasks, hpath, hwrong⟩
    · exact ⟨k, k, rfl, .refl, hwrong⟩
    · exact ⟨k, k', rfl, .head hasks hpath, hwrong⟩

/-- A request is answered with a value if and only if its key is good. -/
theorem resolve_ends (hD : D.Lawful) {bound : Nat} (hbound : D.Bounded bound) (depth : Nat)
    (r : I.Request) (hknown : D.known (I.key r)) (hchain : D.Chain (I.key r :: stack))
    (hnodup : stack.Nodup) (hs : D.Tidy stack s) (hdepth : bound < depth + stack.length) :
    D.Ends stack (· = I.key r) False s
      (fun v s' => D.good (I.key r) ∧ s'.slots.get? (I.key r) = some (.ready v))
      (resolve D.recipes depth r s) := by
  induction depth generalizing r s stack with
  | zero =>
    -- Without fuel the chain of requests would be longer than any chain without repetition.
    have hlength := hbound stack hchain.tail hnodup
    omega
  | succ depth ih =>
    rw [resolve]
    set k := I.key r with hk
    split
    -- The key is being built by a construction below it in the chain: a circle.
    · next hbuilding =>
      have hcycle := cycle_of_mem hchain ((hs.building k).mp hbuilding)
      exact ⟨hs, .inr ⟨k, rfl, hD.not_good_of_cycle k hcycle⟩, hcycle, k, rfl, .refl⟩
    · next v hready => exact ⟨hs, fun _ hfailed => hfailed, hs.ready k v hready, hready⟩
    · next hfailed => exact ⟨hs, .inr ⟨k, rfl, hs.failed k hfailed⟩, hfailed⟩
    · next hnew =>
      have hnotin : k ∉ stack := fun hmem => by
        rw [(hs.building k).mpr hmem] at hnew
        cases hnew
      have hother : ∀ k', k' ≠ k → (s.settle k .building).slots.get? k' = s.slots.get? k' :=
        fun k' hne => by rw [State.settle, Table.get?_set_of_ne hne]
      have hself : (s.settle k .building).slots.get? k = some .building := by
        rw [State.settle, Table.get?_set_self]
      -- The factory's own requests are one longer chain, and the induction answers them.
      have hends : D.Ends (k :: stack) (D.asks k) (D.wrong k) (s.settle k .building)
          (fun _ _ => D.good k) ((D.recipes.factory r).run D.recipes (resolve D.recipes depth)
            (s.settle k .building)) := by
        refine run_ends (fun r' s' hasks hs' => ?_) (within_resolve D.recipes depth)
          (hD.factory r hknown) hs.settle_building fun _ _ hgood _ => hgood
        refine ih r' (hD.known_of_asks k _ hasks) (List.isChain_cons_cons.mpr ⟨hasks, hchain⟩)
          (List.nodup_cons.mpr ⟨hnotin, hnodup⟩) hs' ?_
        rw [List.length_cons]
        omega
      rcases hrun : (D.recipes.factory r).run D.recipes (resolve D.recipes depth)
        (s.settle k .building) with ⟨(e | v) | _ | _, s₁⟩ <;> rw [hrun] at hends
      · obtain ⟨hs₁, hreason, hexplains⟩ := hends
        have hno : ¬D.good k := by
          rcases hreason with hwrong | ⟨k', hasks, hno⟩
          · exact hD.not_good_of_wrong k hwrong
          · exact fun hgood => hno (hD.good_of_asks k k' hasks hgood)
        refine ⟨hs₁.settle_result hnotin nofun nofun fun _ => hno, .inr ⟨k, rfl, hno⟩, ?_⟩
        exact hexplains.factory hnew (by rw [hself]; exact nofun) hother
      · obtain ⟨hs₁, hfailed, hgood⟩ := hends
        refine ⟨hs₁.settle_result hnotin nofun (fun _ _ => hgood) nofun, fun k' hk' => ?_, hgood, ?_⟩
        · by_cases hsame : k' = k
          · subst hsame
            rw [State.settle, Table.get?_set_self] at hk'
            cases hk'
          · rw [State.settle, Table.get?_set_of_ne hsame] at hk'
            rw [← hother k' hsame]
            exact hfailed k' hk'
        · rw [State.settle, Table.get?_set_self]
          rfl
      · exact hends
      · exact hends

/-- A task that is carried out on its own ends as the keys that it asks for let it. -/
theorem execute_ends (hD : D.Lawful) {bound depth : Nat} (hbound : D.Bounded bound)
    (hdepth : bound < depth) {had : I.Key → Prop} {t : Task I α} {R : α → Prop}
    (hknown : ∀ k, asked k → D.known k) (ht : t.Obeys asked had bad R) (hs : D.Tidy [] s)
    (hhad : ∀ k v, D.good k → (t.execute D.recipes depth s).2.slots.get? k = some (.ready v) → had k) :
    D.Ends [] asked bad s (fun v _ => R v) (t.execute D.recipes depth s) := by
  refine run_ends (fun r s hasked hs => ?_) (within_resolve D.recipes depth) ht hs hhad
  exact resolve_ends hD hbound depth r (hknown _ hasked) (List.isChain_singleton _) List.nodup_nil hs
    (by rw [List.length_nil]; omega)

end Regime

end ShaderLowering.Construction
