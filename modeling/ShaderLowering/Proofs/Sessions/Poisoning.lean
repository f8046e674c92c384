import ShaderLowering.Proofs.Sessions.Failures
import ShaderLowering.Proofs.Sessions.Types

/-!
# What a failed request poisons

When a run fails for the first time some factories are running, each of them on behalf of the one before
it: a `Breakdown` is that moment, with the keys of these factories, the failure, and the state at that time,
before anything is given up.  `Task.breakdown?` and `breakdown?` follow a run up to there.

The failure is handed on from each factory to the one that waits for it, so all of them are given up and
nothing else is (`Breaks`): their slots have failed in the end, every other slot that the request took is
ready, and the slots that had been settled before are as they were.  This holds of one task
(`Task.run_breaks`) and, by induction on the depth, of a request (`resolve_breaks`); for requests of a
session it is `Session.ask_poisons`.
-/

namespace ShaderLowering.Construction

variable {I : Interface} {σ α : Type}

/-! ## The first failure of a run -/

/-- The moment at which a run first fails: the keys whose factories are running, the outermost first, why
it fails, and the state at that time. -/
structure Breakdown (I : Interface) (σ : Type) where
  running : List I.Key
  failure : Failure I.Key I.Fault
  state : State I σ

/-- The first failure of a task, given the first failures of the requests that it makes and how these are
answered. -/
def Task.breakdown? (recipes : Recipes I σ) (answer : Answerer I σ)
    (inner : I.Request → State I σ → Option (Breakdown I σ)) :
    Task I α → State I σ → Option (Breakdown I σ)
  | .done (.ok _), _ => none
  | .done (.error e), s => some ⟨[], e, s⟩
  | .panic, _ => none
  | .act action next, s =>
    let (reply, shared) := recipes.act action s.shared
    (next reply).breakdown? recipes answer inner { s with shared }
  | .peek key next, s => (next (s.ready? key)).breakdown? recipes answer inner s
  | .request r next, s =>
    match inner r s, answer r s with
    | some b, _ => some b
    | none, (.returned result, s) => (next result).breakdown? recipes answer inner s
    | none, _ => none

/-- The first failure of a request: it fails at once if its key is being built or has failed, and with its
factory if it is run. -/
def breakdown? (recipes : Recipes I σ) : Nat → I.Request → State I σ → Option (Breakdown I σ)
  | 0, _, _ => none
  | depth + 1, request, s =>
    let k := I.key request
    match s.slots.get? k with
    | some .building => some ⟨[], .cyclic k, s⟩
    | some (.ready _) => none
    | some .failed => some ⟨[], .poisoned k, s⟩
    | none =>
      ((recipes.factory request).breakdown? recipes (resolve recipes depth) (breakdown? recipes depth)
        (s.settle k .building)).map fun b => { b with running := k :: b.running }

/-! ## What a run leaves behind -/

/-- Slots stay as they are, and those that are taken are ready. -/
structure State.Settles (s s' : State I σ) : Prop where
  kept : ∀ k slot, s.slots.get? k = some slot → s'.slots.get? k = some slot
  taken : ∀ k, s.slots.get? k = none →
    s'.slots.get? k = none ∨ ∃ v, s'.slots.get? k = some (.ready v)

/-- From one state to another with a failure in between.  What has been running then was free before, was
being built, each on behalf of the one before it, and has failed; everything else is as it was then, and as
it was before unless it was free, and then it is free or ready. -/
structure Breaks (asks : I.Key → I.Key → Prop) (asked : I.Key → Prop) (s : State I σ)
    (b : Breakdown I σ) (s' : State I σ) : Prop where
  nodup : b.running.Nodup
  first : ∀ k ∈ b.running.head?, asked k
  linked : b.running.IsChain asks
  running : ∀ k ∈ b.running, s.slots.get? k = none ∧ b.state.slots.get? k = some .building ∧
    s'.slots.get? k = some .failed
  kept : ∀ k slot, s.slots.get? k = some slot → b.state.slots.get? k = some slot
  taken : ∀ k, k ∉ b.running → s.slots.get? k = none →
    b.state.slots.get? k = none ∨ ∃ v, b.state.slots.get? k = some (.ready v)
  rest : ∀ k, k ∉ b.running → s'.slots.get? k = b.state.slots.get? k

section Leaving

variable {asks : I.Key → I.Key → Prop} {asked : I.Key → Prop} {s s' s'' : State I σ}
  {b : Breakdown I σ} {k : I.Key}

theorem State.Settles.refl (s : State I σ) : s.Settles s :=
  ⟨fun _ _ h => h, fun _ h => .inl h⟩

/-- What is free in the end has been free all along. -/
theorem State.Settles.free (h : s.Settles s') (hfree : s'.slots.get? k = none) :
    s.slots.get? k = none := by
  cases hslot : s.slots.get? k with
  | none => rfl
  | some slot =>
    rw [h.kept k slot hslot] at hfree
    cases hfree

theorem State.Settles.trans (h : s.Settles s') (h' : s'.Settles s'') : s.Settles s'' where
  kept k slot hslot := h'.kept k slot (h.kept k slot hslot)
  taken k hfree := by
    rcases h.taken k hfree with hfree' | ⟨v, hready⟩
    · exact h'.taken k hfree'
    · exact .inr ⟨v, h'.kept k _ hready⟩

/-- A failure after steps that have succeeded. -/
theorem Breaks.after (h : s.Settles s') (hb : Breaks asks asked s' b s'') :
    Breaks asks asked s b s'' where
  nodup := hb.nodup
  first := hb.first
  linked := hb.linked
  running k hk := ⟨h.free (hb.running k hk).1, (hb.running k hk).2⟩
  kept k slot hslot := hb.kept k slot (h.kept k slot hslot)
  taken k hk hfree := by
    rcases h.taken k hfree with hfree' | ⟨v, hready⟩
    · exact hb.taken k hk hfree'
    · exact .inr ⟨v, hb.kept k _ hready⟩
  rest := hb.rest

/-- A failure of something that has taken no slot. -/
theorem Breaks.here (e : Failure I.Key I.Fault) (s : State I σ) :
    Breaks asks asked s ⟨[], e, s⟩ s where
  nodup := List.nodup_nil
  first := nofun
  linked := .nil
  running := nofun
  kept _ _ h := h
  taken _ _ h := .inl h
  rest _ _ := rfl

theorem get?_settle_of_ne {k' : I.Key} (hne : k' ≠ k) (slot : SlotState (I.Value k)) :
    (s.settle k slot).slots.get? k' = s.slots.get? k' :=
  Table.get?_set_of_ne hne _ _

theorem get?_settle_self (slot : SlotState (I.Value k)) :
    (s.settle k slot).slots.get? k = some slot :=
  Table.get?_set_self _ _ _

/-- A factory that succeeds leaves its slot ready. -/
theorem State.Settles.build (hfree : s.slots.get? k = none) (h : (s.settle k .building).Settles s')
    (v : I.Value k) : s.Settles (s'.settle k (.ready v)) where
  kept k' slot hslot := by
    have hne : k' ≠ k := by
      rintro rfl
      rw [hfree] at hslot
      cases hslot
    rw [get?_settle_of_ne hne]
    exact h.kept k' slot (by rwa [get?_settle_of_ne hne])
  taken k' hnone := by
    by_cases hsame : k' = k
    · subst hsame
      exact .inr ⟨v, get?_settle_self _⟩
    · rw [get?_settle_of_ne hsame]
      exact h.taken k' (by rwa [get?_settle_of_ne hsame])

/-- A factory that fails is given up after what it waits for. -/
theorem Breaks.build (hfree : s.slots.get? k = none)
    (h : Breaks asks (asks k) (s.settle k .building) b s') (hasked : asked k) :
    Breaks asks asked s { b with running := k :: b.running } (s'.settle k .failed) := by
  have hbuilding : (s.settle k .building).slots.get? k = some .building := get?_settle_self _
  -- `k` is building while its factory runs, and what the factory started was free at that time.
  have hother : ∀ k' ∈ b.running, k' ≠ k := by
    rintro k' hk' rfl
    rw [(h.running k' hk').1] at hbuilding
    cases hbuilding
  constructor
  case nodup => exact List.nodup_cons.mpr ⟨fun hk => hother k hk rfl, h.nodup⟩
  case first =>
    rintro k' hk'
    obtain rfl := Option.some.inj hk'
    exact hasked
  case linked => exact h.linked.cons h.first
  case running =>
    intro k' hk'
    rcases List.mem_cons.mp hk' with rfl | hk'
    · exact ⟨hfree, h.kept _ _ hbuilding, get?_settle_self _⟩
    · have hne := hother k' hk'
      have hrunning := h.running k' hk'
      rw [get?_settle_of_ne hne] at hrunning ⊢
      exact hrunning
  case kept =>
    intro k' slot hslot
    have hne : k' ≠ k := by
      rintro rfl
      rw [hfree] at hslot
      cases hslot
    exact h.kept k' slot (by rwa [get?_settle_of_ne hne])
  case taken =>
    intro k' hk' hnone
    rw [List.mem_cons, not_or] at hk'
    obtain ⟨hne, hk'⟩ := hk'
    exact h.taken k' hk' (by rwa [get?_settle_of_ne hne])
  -- The slots that are left as the factory left them are those that are not `k` and not on the chain.
  case rest =>
    intro k' hk'
    rw [List.mem_cons, not_or] at hk'
    obtain ⟨hne, hk'⟩ := hk'
    rw [get?_settle_of_ne hne]
    exact h.rest k' hk'

end Leaving

/-! ## Runs -/

section Runs

variable {recipes : Recipes I σ} {asks : I.Key → I.Key → Prop} {known asked : I.Key → Prop}
  {s s' : State I σ}

/-- What a computation that ends leaves behind, and where it has failed if it has. -/
def Leaves (asks : I.Key → I.Key → Prop) (asked : I.Key → Prop) (s : State I σ)
    (moment : Option (Breakdown I σ)) : Outcome I.Key (Result I α) × State I σ → Prop
  | (.returned (.ok _), s') => moment = none ∧ s.Settles s'
  | (.returned (.error e), s') => ∃ b, moment = some b ∧ b.failure = e ∧ Breaks asks asked s b s'
  | (.panicked _, _) => True
  | (.exhausted, _) => True

theorem Leaves.after {moment : Option (Breakdown I σ)}
    {ending : Outcome I.Key (Result I α) × State I σ} (h : s.Settles s')
    (hending : Leaves asks asked s' moment ending) : Leaves asks asked s moment ending := by
  rcases ending with ⟨(e | v) | _ | _, s''⟩
  · obtain ⟨b, hb, he, hbreaks⟩ := hending
    exact ⟨b, hb, he, hbreaks.after h⟩
  · exact ⟨hending.1, h.trans hending.2⟩
  · trivial
  · trivial

/-- A task that obeys leaves behind what its requests leave. -/
theorem Task.run_breaks {answer : Answerer I σ}
    {inner : I.Request → State I σ → Option (Breakdown I σ)} {t : Task I α} {bad : Prop}
    {R : α → Prop}
    (hanswer : ∀ r s, asked (I.key r) → Leaves asks asked s (inner r s) (answer r s))
    (ht : t.Obeys asked (fun _ => True) bad R) (s : State I σ) :
    Leaves asks asked s (t.breakdown? recipes answer inner s) (t.run recipes answer s) := by
  induction t generalizing s with
  | done result =>
    cases result with
    | ok v => exact ⟨rfl, .refl s⟩
    | error e => exact ⟨_, rfl, rfl, .here e s⟩
  | panic => exact ht.elim
  | act action next ih =>
    have hslots : s.Settles { s with shared := (recipes.act action s.shared).2 } :=
      ⟨fun _ _ h => h, fun _ h => .inl h⟩
    exact .after hslots (ih _ (ht _) _)
  | peek key next => exact ht.elim
  | request r next ih =>
    obtain ⟨hasked, hok, herror⟩ := ht
    have hfirst := hanswer r s hasked
    rw [run, breakdown?]
    rcases hresult : answer r s with ⟨(e | v) | _ | _, s₁⟩ <;> rw [hresult] at hfirst
    · obtain ⟨b, hb, he, hbreaks⟩ := hfirst
      rw [hb]
      dsimp only
      rw [herror e]
      exact ⟨b, rfl, he, hbreaks⟩
    · obtain ⟨hnone, hsettles⟩ := hfirst
      rw [hnone]
      exact .after hsettles (ih _ (hok v trivial) s₁)
    · trivial
    · trivial

/-- A request leaves behind what its factory and the requests of that leave. -/
theorem resolve_breaks {bad : I.Key → Prop} {R : (r : I.Request) → I.Value (I.key r) → Prop}
    (hknown : ∀ k k', asks k k' → known k')
    (hfactory : ∀ r, known (I.key r) →
      (recipes.factory r).Obeys (asks (I.key r)) (fun _ => True) (bad (I.key r)) (R r))
    (depth : Nat) (r : I.Request) (hr : known (I.key r)) (hasked : asked (I.key r))
    (s : State I σ) :
    Leaves asks asked s (breakdown? recipes depth r s) (resolve recipes depth r s) := by
  induction depth generalizing r s asked with
  | zero => trivial
  | succ depth ih =>
    rw [resolve, breakdown?]
    cases hslot : s.slots.get? (I.key r) with
    | some slot =>
      cases slot with
      | building => exact ⟨_, rfl, rfl, .here _ s⟩
      | ready v => exact ⟨rfl, .refl s⟩
      | failed => exact ⟨_, rfl, rfl, .here _ s⟩
    | none =>
      have hrun : Leaves asks (asks (I.key r)) (s.settle (I.key r) .building)
          ((recipes.factory r).breakdown? recipes (resolve recipes depth) (breakdown? recipes depth)
            (s.settle (I.key r) .building))
          ((recipes.factory r).run recipes (resolve recipes depth) (s.settle (I.key r) .building)) :=
        Task.run_breaks (fun r' s' hasks => ih r' (hknown _ _ hasks) hasks s') (hfactory r hr) _
      dsimp only
      rcases hends : (recipes.factory r).run recipes (resolve recipes depth)
        (s.settle (I.key r) .building) with ⟨(e | v) | _ | _, s₁⟩ <;> rw [hends] at hrun
      · obtain ⟨b, hb, he, hbreaks⟩ := hrun
        rw [hb]
        exact ⟨_, rfl, he, hbreaks.build hslot hasked⟩
      · rw [hrun.1]
        exact ⟨rfl, hrun.2.build hslot v⟩
      · trivial
      · trivial

end Runs

end ShaderLowering.Construction

/-! ## Sessions -/

namespace ShaderLowering

open Construction (Task Breakdown Breaks Leaves)

namespace Session

variable {a : Assembly} {s s' : Session} {request : Request} {b : Breakdown lowering Emission}
  {e : Error}

/-- The first failure of a request. -/
def breakdown? (a : Assembly) (s : Session) (request : Request) :
    Option (Breakdown lowering Emission) :=
  (request.task a).breakdown? (recipes a) (Construction.resolve (recipes a) a.depth)
    (Construction.breakdown? (recipes a) a.depth) s

/-- From a session to another by a request that breaks down.  Exactly what was being built when it broke
down has newly failed: a chain of nested constructions, from what the request asks for down to the innermost
one whose factory was running, and nothing if no slot had been taken by then.  Every other slot that has been
taken is ready, none is left being built, and what there was before is as it was. -/
structure Poisons (a : Assembly) (request : Request) (s : Session) (b : Breakdown lowering Emission)
    (s' : Session) : Prop where
  failed : ∀ k, s'.slots.get? k = some .failed ∧ s.slots.get? k ≠ some .failed ↔ k ∈ b.running
  building : ∀ k, b.state.slots.get? k = some .building ↔ k ∈ b.running
  nodup : b.running.Nodup
  first : ∀ k ∈ b.running.head?, request.AsksFor a k
  linked : b.running.IsChain (Asks a)
  nothing : (∀ k, s.slots.get? k = none → b.state.slots.get? k = none) → b.running = []
  taken : ∀ k, s.slots.get? k = none → k ∉ b.running →
    s'.slots.get? k = none ∨ ∃ v, s'.slots.get? k = some (.ready v)
  settled : ∀ k, s'.slots.get? k ≠ some .building
  kept : ∀ k slot, s.slots.get? k = some slot → s'.slots.get? k = some slot

/-- A request leaves behind what its task leaves. -/
theorem ask_leaves (hnumbered : a.Numbered) (s : Session) (request : Request) :
    Leaves (Asks a) (request.AsksFor a) s (s.breakdown? a request) (s.ask a request) := by
  have hlawful := regime_lawful hnumbered
  refine Task.run_breaks (fun r s' hasked => ?_) request.task_asks s
  exact Construction.resolve_breaks hlawful.known_of_asks
    (fun k hk => keeps_factory hnumbered (fun _ => True) k hk) a.depth r hasked.known hasked s'

/-- What breaks down where nothing is being built poisons what it has been building. -/
theorem Poisons.of_breaks (hs : ∀ k, s.slots.get? k ≠ some .building)
    (h : Breaks (Asks a) (request.AsksFor a) s b s') : s.Poisons a request b s' := by
  have hfresh : ∀ k, k ∉ b.running → s.slots.get? k = none →
      s'.slots.get? k = none ∨ ∃ v, s'.slots.get? k = some (.ready v) := fun k hk hfree => by
    rw [h.rest k hk]
    exact h.taken k hk hfree
  have hkept : ∀ k slot, s.slots.get? k = some slot → s'.slots.get? k = some slot := by
    intro k slot hslot
    have hk : k ∉ b.running := fun hk => by
      rw [(h.running k hk).1] at hslot
      cases hslot
    rw [h.rest k hk]
    exact h.kept k slot hslot
  -- Outside of what has been running a slot is as before, free or ready.
  have hsame : ∀ k, k ∉ b.running → ∀ slot, s'.slots.get? k = some slot →
      s.slots.get? k = some slot ∨ ∃ v, slot = .ready v := by
    intro k hk slot hslot
    cases hbefore : s.slots.get? k with
    | some slot' =>
      rw [hkept k slot' hbefore] at hslot
      exact .inl hslot
    | none =>
      rcases hfresh k hk hbefore with hfree | ⟨v, hready⟩
      · rw [hfree] at hslot
        cases hslot
      · exact .inr ⟨v, Option.some.inj (hslot.symm.trans hready)⟩
  have hsettled : ∀ k, k ∉ b.running → s'.slots.get? k ≠ some .building := by
    intro k hk hbuilding
    rcases hsame k hk _ hbuilding with hbefore | ⟨v, hready⟩
    · exact hs k hbefore
    · cases hready
  constructor
  case failed =>
    intro k
    constructor
    · rintro ⟨hfailed, hnew⟩
      by_contra hk
      rcases hsame k hk _ hfailed with hbefore | ⟨v, hready⟩
      · exact hnew hbefore
      · cases hready
    · intro hk
      obtain ⟨hfree, -, hfailed⟩ := h.running k hk
      exact ⟨hfailed, by rw [hfree]; exact nofun⟩
  case building =>
    intro k
    constructor
    · intro hbuilding
      by_contra hk
      exact hsettled k hk ((h.rest k hk).trans hbuilding)
    · exact fun hk => (h.running k hk).2.1
  case nodup => exact h.nodup
  case first => exact h.first
  case linked => exact h.linked
  case nothing =>
    intro hnone
    refine List.eq_nil_iff_forall_not_mem.mpr fun k hk => ?_
    obtain ⟨hfree, hbuilding, -⟩ := h.running k hk
    rw [hnone k hfree] at hbuilding
    cases hbuilding
  case taken => exact fun k hfree hk => hfresh k hk hfree
  case settled =>
    intro k hbuilding
    by_cases hk : k ∈ b.running
    · rw [(h.running k hk).2.2] at hbuilding
      cases hbuilding
    · exact hsettled k hk hbuilding
  case kept => exact hkept

/-- A request that fails in a session, whatever has been asked for before, poisons what was being built
when its failure arose, and that alone. -/
theorem ask_poisons (hbuilt : a.Built) (requests : List Request)
    (hask : (start.askAll a requests).ask a request = (.returned (.error e), s')) :
    ∃ b, (start.askAll a requests).breakdown? a request = some b ∧ b.failure = e ∧
      (start.askAll a requests).Poisons a request b s' := by
  have htidy := askAll_tidy hbuilt.numbered requests
  have hleaves := ask_leaves hbuilt.numbered (start.askAll a requests) request
  rw [hask] at hleaves
  obtain ⟨b, hb, hfailure, hbreaks⟩ := hleaves
  refine ⟨b, hb, hfailure, .of_breaks (fun k hbuilding => ?_) hbreaks⟩
  exact List.not_mem_nil ((htidy.building k).mp hbuilding)

end Session

/-- The session in which the method that calls nothing that exists has failed. -/
def strayed : Session :=
  Session.start.askAll tangle [.method ⟨2⟩]

/-- After a failure of something else, a method that calls one that is fine and one that calls itself: both
of the latter are poisoned, the former is ready. -/
theorem strayed_ask_poisons :
    tangle.Built ∧
      strayed.ask tangle (.method ⟨3⟩) = (.returned (.error (.cyclic (.function spinning.key))),
        (strayed.ask tangle (.method ⟨3⟩)).2) ∧
      ∃ b, strayed.breakdown? tangle (.method ⟨3⟩) = some b ∧
        b.failure = .cyclic (.function spinning.key) ∧
        b.running = [.function ⟨⟨3⟩, []⟩, .function spinning.key] ∧
        strayed.Poisons tangle (.method ⟨3⟩) b (strayed.ask tangle (.method ⟨3⟩)).2 := by
  have hfails : (strayed.ask tangle (.method ⟨3⟩)).1 =
      .returned (.error (.cyclic (.function spinning.key))) := by decide +kernel
  have hask : strayed.ask tangle (.method ⟨3⟩) =
      (.returned (.error (.cyclic (.function spinning.key))),
        (strayed.ask tangle (.method ⟨3⟩)).2) := Prod.ext hfails rfl
  have hrunning : (strayed.breakdown? tangle (.method ⟨3⟩)).map Breakdown.running =
      some [.function ⟨⟨3⟩, []⟩, .function spinning.key] := by decide +kernel
  obtain ⟨b, hb, hfailure, hpoisons⟩ := Session.ask_poisons tangle_built [.method ⟨2⟩] hask
  change strayed.breakdown? tangle (.method ⟨3⟩) = some b at hb
  rw [hb] at hrunning
  exact ⟨tangle_built, hask, b, hb, hfailure, Option.some.inj hrunning, hpoisons⟩

end ShaderLowering
