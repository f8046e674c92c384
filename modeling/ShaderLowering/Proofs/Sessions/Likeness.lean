import ShaderLowering.Proofs.Sessions.Regime

/-!
# What fails alone fails in company

Two runs of a task need not see the same ids, so they are not runs of the same steps: what a task does
next may depend on the values that it was given.  `Task.Alike` says that two tasks take the same turns
all the same: they act together, ask together for the same or for keys that are good in any case, and
fail of their own accord together and for the same cause.

If the factories of a lawful regime are alike then so are the answers to requests
(`Regime.resolve_alike`), whatever is ready in the one state or in the other, as long as nothing has
failed in either: a key that is not good is not ready, so both runs meet it under construction or both
construct it.  What fails then fails for the same root (`Failure.Root`), not because it was given up
before.
-/

namespace ShaderLowering.Construction

variable {I : Interface} {σ α α' β β' : Type}

/-- What two alike tasks may differ in: the requests that stand for each other, and the causes for
which a task may fail of its own accord. -/
structure Likeness (I : Interface) where
  twin : I.Request → I.Request → Prop
  cause : I.Fault → Prop

/-- A failure is not that of a construction that was given up before, and has one of certain causes. -/
def Failure.Root {κ φ : Type} (cause : φ → Prop) : Failure κ φ → Prop
  | .cyclic _ => True
  | .poisoned _ => False
  | .fault c => cause c

/-! ## Alike tasks -/

namespace Task

/-- Two tasks take the same turns, and end with values that are related. -/
inductive Alike (L : Likeness I) (R : α → α' → Prop) : Task I α → Task I α' → Prop
  | value {v : α} {v' : α'} (h : R v v') : Alike L R (.done (.ok v)) (.done (.ok v'))
  | fault {cause : I.Fault} (h : L.cause cause) :
      Alike L R (.done (.error (.fault cause))) (.done (.error (.fault cause)))
  | act {action action' : I.Action} {next : I.Answer action → Task I α}
      {next' : I.Answer action' → Task I α'}
      (h : ∀ answer answer', Alike L R (next answer) (next' answer')) :
      Alike L R (.act action next) (.act action' next')
  | request {r r' : I.Request} {next : Result I (I.Value (I.key r)) → Task I α}
      {next' : Result I (I.Value (I.key r')) → Task I α'} (htwin : L.twin r r')
      (hok : ∀ v v', Alike L R (next (.ok v)) (next' (.ok v')))
      (herror : ∀ e, next (.error e) = .done (.error e))
      (herror' : ∀ e, next' (.error e) = .done (.error e)) :
      Alike L R (.request r next) (.request r' next')

namespace Alike

variable {L : Likeness I} {R R' : α → α' → Prop} {S : β → β' → Prop} {t : Task I α} {t' : Task I α'}
  {f : α → Task I β} {f' : α' → Task I β'}

theorem mono (ht : Alike L R t t') (himp : ∀ v v', R v v' → R' v v') : Alike L R' t t' := by
  induction ht with
  | value h => exact .value (himp _ _ h)
  | fault h => exact .fault h
  | act _ ih => exact .act ih
  | request htwin _ herror herror' ih => exact .request htwin ih herror herror'

theorem bind (ht : Alike L R t t') (hf : ∀ v v', R v v' → Alike L S (f v) (f' v')) :
    Alike L S (t >>= f) (t' >>= f') := by
  change Alike L S (t.bind f) (t'.bind f')
  induction ht with
  | value h => exact hf _ _ h
  | fault h => exact .fault h
  | act _ ih => exact .act ih
  | request htwin _ herror herror' ih =>
    exact .request htwin ih (fun e => congrArg (Task.bind · f) (herror e))
      fun e => congrArg (Task.bind · f') (herror' e)

theorem pure {v : α} {v' : α'} (h : R v v') :
    Alike L R (Pure.pure v : Task I α) (Pure.pure v' : Task I α') :=
  .value h

theorem fail {cause : I.Fault} (h : L.cause cause) :
    Alike L R (Task.fail cause : Task I α) (Task.fail cause : Task I α') :=
  .fault h

theorem ofOption {cause : I.Fault} {o : Option α} {o' : Option α'} (h : L.cause cause)
    (hsome : o.isSome = o'.isSome) (hR : ∀ v v', o = some v → o' = some v' → R v v') :
    Alike L R (Task.ofOption cause o) (Task.ofOption cause o') := by
  cases o <;> cases o' <;> simp only [Option.isSome, reduceCtorEq] at hsome
  · exact .fail h
  · exact .pure (hR _ _ rfl rfl)

theorem map {k : α → β} {k' : α' → β'} (ht : Alike L (fun v v' => S (k v) (k' v')) t t') :
    Alike L S (k <$> t) (k' <$> t') := by
  rw [← bind_pure_comp, ← bind_pure_comp]
  exact ht.bind fun _ _ hv => .pure hv

/-- Tasks for the members of one list. -/
theorem mapM {γ : Type} {xs : List γ} {k : γ → Task I β} {k' : γ → Task I β'}
    (hk : ∀ x, Alike L S (k x) (k' x)) :
    Alike L (List.Forall₂ S) (xs.mapM k) (xs.mapM k') := by
  induction xs with
  | nil => exact .pure .nil
  | cons x xs ih =>
    rw [List.mapM_cons, List.mapM_cons]
    refine .bind (hk x) fun v v' hv => ?_
    exact .bind ih fun vs vs' hvs => .pure (.cons hv hvs)

theorem perform (action action' : I.Action) :
    Alike L (fun _ _ => True) (Task.perform action) (Task.perform action') :=
  .act fun _ _ => .pure trivial

theorem ask {r r' : I.Request} (htwin : L.twin r r') :
    Alike L (fun _ _ => True) (Task.ask r) (Task.ask r') :=
  .request htwin (fun _ _ => .value trivial) (fun _ => rfl) fun _ => rfl

end Alike

end Task

/-! ## Alike runs -/

namespace Regime

variable (D : Regime I σ)

/-- The slots of a state are in order, and nothing has failed. -/
structure Clean (stack : List I.Key) (s : State I σ) : Prop where
  tidy : D.Tidy stack s
  unfailed : ∀ k, s.slots.get? k ≠ some .failed

/-- Two runs end with values, or both fail for the same root. -/
def Agrees (cause : I.Fault → Prop) (stack : List I.Key) (R : α → α' → Prop) :
    Outcome I.Key (Result I α) × State I σ → Outcome I.Key (Result I α') × State I σ → Prop
  | (.returned (.ok v), s), (.returned (.ok v'), s') => D.Clean stack s ∧ D.Clean stack s' ∧ R v v'
  | (.returned (.error e), _), (.returned (.error e'), _) => e = e' ∧ e.Root cause
  | _, _ => False

/-- Requests that stand for each other are for the same key, which is constructed alike, or for keys
that are good. -/
def Respects (L : Likeness I) : Prop :=
  ∀ r r', L.twin r r' →
    (I.key r = I.key r' ∧
      Task.Alike L (fun _ _ => True) (D.recipes.factory r) (D.recipes.factory r')) ∨
    (D.good (I.key r) ∧ D.good (I.key r'))

variable {D} {L : Likeness I} {stack : List I.Key} {asked : I.Key → Prop} {bad : Prop}
  {s s' : State I σ}

theorem Clean.start (shared : σ) : D.Clean [] (State.start shared) :=
  ⟨.start shared, by simp [State.start]⟩

/-- What ends with a value leaves a clean state clean. -/
theorem Ends.clean {R : α → State I σ → Prop} {v : α} (hs : D.Clean stack s)
    (h : D.Ends stack asked bad s R (.returned (.ok v), s')) : D.Clean stack s' :=
  ⟨h.1, fun k hfailed => hs.unfailed k (h.2.1 k hfailed)⟩

/-- Runs of alike tasks agree if the answers to their requests do. -/
theorem run_alike {answer : Answerer I σ} {R : α → α' → Prop} {asked' : I.Key → Prop} {bad' : Prop}
    {P : α → Prop} {P' : α' → Prop} {t : Task I α} {t' : Task I α'}
    (hanswer : ∀ r r' s s', L.twin r r' → asked (I.key r) → asked' (I.key r') → D.Clean stack s →
      D.Clean stack s' → D.Agrees L.cause stack (fun _ _ => D.good (I.key r) ∧ D.good (I.key r'))
        (answer r s) (answer r' s'))
    (halike : t.Alike L R t') (ht : t.Obeys asked D.good bad P) (ht' : t'.Obeys asked' D.good bad' P')
    (hs : D.Clean stack s) (hs' : D.Clean stack s') :
    D.Agrees L.cause stack R (t.run D.recipes answer s) (t'.run D.recipes answer s') := by
  induction halike generalizing s s' with
  | value h => exact ⟨hs, hs', h⟩
  | fault h => exact ⟨rfl, h⟩
  | @act action action' next next' _ ih =>
    have hacted : D.Clean stack { s with shared := (D.recipes.act action s.shared).2 } :=
      ⟨⟨hs.tidy.building, hs.tidy.ready, hs.tidy.failed⟩, hs.unfailed⟩
    have hacted' : D.Clean stack { s' with shared := (D.recipes.act action' s'.shared).2 } :=
      ⟨⟨hs'.tidy.building, hs'.tidy.ready, hs'.tidy.failed⟩, hs'.unfailed⟩
    exact ih _ _ (ht _) (ht' _) hacted hacted'
  | @request r r' next next' htwin _ herror herror' ih =>
    obtain ⟨hasked, hok, -⟩ := ht
    obtain ⟨hasked', hok', -⟩ := ht'
    have hagrees := hanswer r r' s s' htwin hasked hasked' hs hs'
    rw [Task.run, Task.run]
    rcases hfirst : answer r s with ⟨(e | v) | _ | _, s₁⟩ <;>
      rcases hfirst' : answer r' s' with ⟨(e' | v') | _ | _, s₁'⟩ <;>
      rw [hfirst, hfirst'] at hagrees <;> try exact hagrees.elim
    · dsimp only
      rw [herror, herror']
      exact hagrees
    · obtain ⟨hs₁, hs₁', hgood, hgood'⟩ := hagrees
      exact ih v v' (hok v hgood) (hok' v' hgood') hs₁ hs₁'

/-- Requests for keys that are good are both answered with values. -/
theorem agrees_of_good {cause : I.Fault → Prop} {k k' : I.Key} {S : α → State I σ → Prop}
    {S' : α' → State I σ → Prop} {ending : Outcome I.Key (Result I α) × State I σ}
    {ending' : Outcome I.Key (Result I α') × State I σ} (hgood : D.good k) (hgood' : D.good k')
    (hs : D.Clean stack s) (hs' : D.Clean stack s') (hends : D.Ends stack (· = k) False s S ending)
    (hends' : D.Ends stack (· = k') False s' S' ending') :
    D.Agrees cause stack (fun _ _ => D.good k ∧ D.good k') ending ending' := by
  -- A request for a good key cannot fail: a failure names a key that is asked and not good.
  have hvalue : ∀ {k : I.Key} {s : State I σ} {e : Failure I.Key I.Fault}, D.good k →
      ¬((False ∨ ∃ k', k' = k ∧ ¬D.good k') ∧ D.Explains (· = k) False s e) := by
    rintro k s e hgood ⟨hno | ⟨_, rfl, hno⟩, -⟩
    · exact hno
    · exact hno hgood
  rcases ending with ⟨(e | v) | _ | _, s₁⟩
  · exact absurd hends.2 (hvalue hgood)
  · rcases ending' with ⟨(e' | v') | _ | _, s₁'⟩
    · exact absurd hends'.2 (hvalue hgood')
    · exact ⟨hends.clean hs, hends'.clean hs', hgood, hgood'⟩
    · exact hends'.elim
    · exact hends'.elim
  · exact hends.elim
  · exact hends.elim

/-- Whether a key that is not good is under construction does not depend on what is ready; if it is not,
it has not been asked for. -/
theorem Clean.slot_eq {k : I.Key} (hs : D.Clean stack s) (hno : ¬D.good k) :
    s.slots.get? k = if k ∈ stack then some .building else none := by
  split
  · next hmem => exact (hs.tidy.building k).mpr hmem
  · next hmem =>
    cases hslot : s.slots.get? k with
    | none => rfl
    | some slot =>
      cases slot with
      | building => exact absurd ((hs.tidy.building k).mp hslot) hmem
      | ready v => exact absurd (hs.tidy.ready k v hslot) hno
      | failed => exact absurd hslot (hs.unfailed k)

/-- A slot is taken for what is about to be built. -/
theorem Clean.settle_building {k : I.Key} (hs : D.Clean stack s) :
    D.Clean (k :: stack) (s.settle k .building) := by
  refine ⟨hs.tidy.settle_building, fun k' hfailed => ?_⟩
  by_cases hsame : k' = k
  · subst hsame
    simp [State.settle] at hfailed
  · rw [State.settle, Table.get?_set_of_ne hsame] at hfailed
    exact hs.unfailed k' hfailed

/-- Requests that stand for each other are answered alike. -/
theorem resolve_alike (hD : D.Lawful) (hL : D.Respects L) {bound : Nat} (hbound : D.Bounded bound)
    (depth : Nat) {r r' : I.Request} (htwin : L.twin r r') (hknown : D.known (I.key r))
    (hknown' : D.known (I.key r')) (hchain : D.Chain (I.key r :: stack))
    (hchain' : D.Chain (I.key r' :: stack)) (hnodup : stack.Nodup) (hs : D.Clean stack s)
    (hs' : D.Clean stack s') (hdepth : bound < depth + stack.length) :
    D.Agrees L.cause stack (fun _ _ => D.good (I.key r) ∧ D.good (I.key r'))
      (resolve D.recipes depth r s) (resolve D.recipes depth r' s') := by
  induction depth generalizing r r' s s' stack with
  | zero => exact (resolve_ends hD hbound 0 r hknown hchain hnodup hs.tidy hdepth).elim
  | succ depth ih =>
    have hends := resolve_ends hD hbound (depth + 1) r hknown hchain hnodup hs.tidy hdepth
    have hends' := resolve_ends hD hbound (depth + 1) r' hknown' hchain' hnodup hs'.tidy hdepth
    -- The answers can differ only where a key is not good, and there both sessions look alike:
    -- the slot is on the chain or free.
    rcases hL r r' htwin with ⟨hkey, halike⟩ | ⟨hgood, hgood'⟩
    case inr => exact agrees_of_good hgood hgood' hs hs' hends hends'
    by_cases hgood : D.good (I.key r)
    case pos => exact agrees_of_good hgood (hkey ▸ hgood) hs hs' hends hends'
    have hslot := hs.slot_eq hgood
    have hslot' := hs'.slot_eq (k := I.key r') (hkey ▸ hgood)
    by_cases hmem : I.key r ∈ stack
    · rw [if_pos hmem] at hslot
      rw [if_pos (hkey ▸ hmem)] at hslot'
      simp only [resolve, hslot, hslot']
      exact ⟨congrArg Failure.cyclic hkey, trivial⟩
    · rw [if_neg hmem] at hslot
      rw [if_neg (hkey ▸ hmem)] at hslot'
      simp only [resolve, hslot, hslot'] at hends ⊢
      have hbuilding' : D.Clean (I.key r :: stack) (s'.settle (I.key r') .building) := by
        rw [hkey]
        exact hs'.settle_building
      have hrun : D.Agrees L.cause (I.key r :: stack) (fun _ _ => True)
          ((D.recipes.factory r).run D.recipes (resolve D.recipes depth) (s.settle (I.key r) .building))
          ((D.recipes.factory r').run D.recipes (resolve D.recipes depth)
            (s'.settle (I.key r') .building)) := by
        refine run_alike (fun r₁ r₁' s₁ s₁' htwin₁ hasks hasks' hs₁ hs₁' => ?_) halike
          (hD.factory r hknown) (hD.factory r' hknown') hs.settle_building hbuilding'
        rw [hkey] at hchain
        refine ih htwin₁ (hD.known_of_asks _ _ hasks) (hD.known_of_asks _ _ hasks') ?_ ?_
          (List.nodup_cons.mpr ⟨hmem, hnodup⟩) hs₁ hs₁' ?_
        · rw [hkey]
          exact List.isChain_cons_cons.mpr ⟨hkey ▸ hasks, hchain⟩
        · rw [hkey]
          exact List.isChain_cons_cons.mpr ⟨hasks', hchain'⟩
        · rw [List.length_cons]
          omega
      rcases hfirst : (D.recipes.factory r).run D.recipes (resolve D.recipes depth)
          (s.settle (I.key r) .building) with ⟨(e | v) | _ | _, s₁⟩ <;>
        rcases hfirst' : (D.recipes.factory r').run D.recipes (resolve D.recipes depth)
          (s'.settle (I.key r') .building) with ⟨(e' | v') | _ | _, s₁'⟩ <;>
        rw [hfirst, hfirst'] at hrun <;> try exact hrun.elim
      · exact hrun
      -- A value would make the key good, against the case.
      · rw [hfirst] at hends
        exact absurd hends.2.2.1 hgood

/-- Alike tasks that are carried out on their own from clean states agree. -/
theorem execute_alike (hD : D.Lawful) (hL : D.Respects L) {bound depth : Nat}
    (hbound : D.Bounded bound) (hdepth : bound < depth) {R : α → α' → Prop} {P : α → Prop}
    {P' : α' → Prop} {t : Task I α} {t' : Task I α'} (hknown : ∀ k, asked k → D.known k)
    (halike : t.Alike L R t') (ht : t.Obeys asked D.good bad P) (ht' : t'.Obeys asked D.good bad P')
    (hs : D.Clean [] s) (hs' : D.Clean [] s') :
    D.Agrees L.cause [] R (t.execute D.recipes depth s) (t'.execute D.recipes depth s') :=
  run_alike (fun r r' _ _ htwin hasked hasked' hs₁ hs₁' => resolve_alike hD hL hbound depth htwin
    (hknown _ hasked) (hknown _ hasked') (List.isChain_singleton _) (List.isChain_singleton _)
    List.nodup_nil hs₁ hs₁' (by rw [List.length_nil]; omega)) halike ht ht' hs hs'

end Regime

end ShaderLowering.Construction
