import ShaderLowering.Proofs.Sessions.Copies
import ShaderLowering.Proofs.Sessions.Recursion

/-!
# Failures report their root

On one thread entry points are constructed in their order, each in the state that those before it have
left.  As constructions take the same turns in every state (`alike_factory`), an entry point fails in
that state exactly if it fails when it is the only one, and for the same error
(`outcome_entryPoints`).  So a list of entry points fails as the first of them does that fails alone
(`compile_fails_as_alone`).  What is reported is the root of the failure: no construction that was
given up before is met again, because the first failure ends the run, and no entry point is left
without its function.
-/

namespace ShaderLowering

open Construction
open Spirv

variable {a : Assembly} {requested entries : List EntryPoint} {entry : EntryPoint} {s : Session}
  {config : Config}

/-- The error with which entry points fail to compile, if they do. -/
def compileError? (a : Assembly) (requested : List EntryPoint) (config : Config) : Option Error :=
  match compile a requested config with
  | .returned (.error e) => some e
  | _ => none

/-! ## Constructing entry points -/

/-- Requests that stand for each other are answered alike. -/
theorem regime_respects (a : Assembly) : (regime a).Respects likeness := by
  intro k k' htwins
  cases htwins with
  | same => exact .inl ⟨rfl, alike_factory a k⟩
  | leaf h h' => exact .inr ⟨constructible_of_leaf h, constructible_of_leaf h'⟩

/-- The error with which the construction of an entry point fails when nothing has been constructed. -/
def aloneError? (a : Assembly) (entry : EntryPoint) : Option Error :=
  match (Session.start.run a (Construct.entryPoint a entry)).1 with
  | .returned (.error e) => some e
  | _ => none

theorem entryPoint_obeys (a : Assembly) (entry : EntryPoint) :
    Task.Obeys (I := lowering) (fun k => ∃ key, k = .function key) (Constructible a)
      (a.method? entry.method = none) (Construct.entryPoint a entry) fun _ => True :=
  .bind (.ofOption fun hnone => hnone) fun _ _ => .bind (.ask ⟨_, rfl⟩) fun _ _ => .pure trivial

theorem alike_entryPoint (a : Assembly) (entry : EntryPoint) :
    Construct.Alike (fun _ _ => True) (Construct.entryPoint a entry) (Construct.entryPoint a entry) := by
  refine .bind (alike_lookup _) fun m m' heq => ?_
  subst heq
  exact .bind (alike_ask (.same (.function (FunctionKey.ofMethod m)))) fun _ _ _ => .pure trivial

/-- An entry point is constructed in a clean state as it is when nothing has been constructed. -/
theorem agrees_entryPoint (hnumbered : a.Numbered) (hs : (regime a).Clean [] s) (entry : EntryPoint) :
    (regime a).Agrees Fault.Found [] (fun _ _ => True) (s.run a (Construct.entryPoint a entry))
      (Session.start.run a (Construct.entryPoint a entry)) := by
  have hdepth : a.places.length + 1 < a.depth := by
    have hlength := a.length_places
    omega
  refine Regime.execute_alike (regime_lawful hnumbered) (regime_respects a) (regime_bounded hnumbered)
    hdepth ?_ (alike_entryPoint a entry) (entryPoint_obeys a entry) (entryPoint_obeys a entry) hs
    (Regime.Clean.start _)
  rintro k ⟨key, rfl⟩
  trivial

/-- How the construction of an entry point ends in a clean state. -/
theorem outcome_entryPoint (hnumbered : a.Numbered) (hs : (regime a).Clean [] s) (entry : EntryPoint) :
    (∃ s', s.run a (Construct.entryPoint a entry) = (.returned (.ok ()), s') ∧
        (regime a).Clean [] s' ∧ aloneError? a entry = none) ∨
      ∃ e s', s.run a (Construct.entryPoint a entry) = (.returned (.error e), s') ∧
        aloneError? a entry = some e ∧ e.Root Fault.Found := by
  have hagrees := agrees_entryPoint hnumbered hs entry
  unfold aloneError?
  rcases hrun : s.run a (Construct.entryPoint a entry) with ⟨(e | _) | _ | _, s'⟩ <;>
    rcases halone : Session.start.run a (Construct.entryPoint a entry) with ⟨(e' | _) | _ | _, s₁⟩ <;>
    rw [hrun, halone] at hagrees <;> try exact hagrees.elim
  · obtain ⟨rfl, hroot⟩ := hagrees
    exact .inr ⟨e, s', rfl, rfl, hroot⟩
  · exact .inl ⟨s', rfl, hagrees.1, rfl⟩

/-- Entry points are constructed in a clean state unless one of them fails alone; then they fail as the
first of these does. -/
theorem outcome_entryPoints (hnumbered : a.Numbered) (hs : (regime a).Clean [] s)
    (entries : List EntryPoint) :
    (∃ s', s.run a (Construct.entryPoints a entries) = (.returned (.ok ()), s') ∧
        entries.findSome? (aloneError? a) = none) ∨
      ∃ e s', s.run a (Construct.entryPoints a entries) = (.returned (.error e), s') ∧
        entries.findSome? (aloneError? a) = some e ∧ e.Root Fault.Found := by
  induction entries generalizing s with
  | nil => exact .inl ⟨s, rfl, rfl⟩
  | cons entry entries ih =>
    have hcons : s.run a (Construct.entryPoints a (entry :: entries)) =
        (Construction.Task.bind (Construct.entryPoint a entry)
          fun _ => Construct.entryPoints a entries).run (recipes a) (resolve (recipes a) a.depth) s := rfl
    rcases outcome_entryPoint hnumbered hs entry with ⟨s', hrun, hs', hnone⟩ | ⟨e, s', hrun, hsome, hroot⟩
    · rw [Session.run, Task.execute] at hrun
      rw [hcons, Task.run_bind, hrun, List.findSome?_cons, hnone]
      exact ih hs'
    · rw [Session.run, Task.execute] at hrun
      rw [hcons, Task.run_bind, hrun, List.findSome?_cons, hsome]
      exact .inr ⟨e, s', rfl, rfl, hroot⟩

/-! ## Compiling -/

section Appearances

variable {α β : Type} [DecidableEq α]

theorem findSome?_filter_ne {f : α → Option β} {x : α} (hx : f x = none) (ys : List α) :
    (ys.filter (· ≠ x)).findSome? f = ys.findSome? f := by
  induction ys with
  | nil => rfl
  | cons y ys ih =>
    by_cases hsame : y = x
    · simpa [hsame, hx] using ih
    · simp only [ne_eq, hsame, not_false_eq_true, decide_true, List.filter_cons_of_pos,
        List.findSome?_cons, ← ih]

/-- What is found among first appearances is found among all. -/
theorem findSome?_firstAppearances (f : α → Option β) (xs : List α) :
    (firstAppearances xs).findSome? f = xs.findSome? f := by
  induction xs with
  | nil => rfl
  | cons x xs ih =>
    rw [firstAppearances, List.findSome?_cons, List.findSome?_cons]
    cases hx : f x with
    | some y => rfl
    | none => exact (findSome?_filter_ne hx _).trans ih

theorem find?_firstAppearances (p : α → Bool) (xs : List α) :
    (firstAppearances xs).find? p = xs.find? p := by
  rw [List.find?_eq_findSome?_guard, List.find?_eq_findSome?_guard, findSome?_firstAppearances]

end Appearances

/-- A list of entry points of which not all are fragment shaders is rejected for the first that is
none. -/
theorem checkModels_eq_error (h : entries.find? (·.model ≠ .fragment) = some entry) :
    checkModels entries = .error (.unsupportedExecutionModel entry.model) := by
  induction entries with
  | nil => cases h
  | cons first entries ih =>
    rw [List.find?_cons] at h
    rw [checkModels]
    cases hmodel : first.model
    case fragment =>
      rw [hmodel] at h
      exact ih h
    all_goals
      rw [hmodel] at h
      obtain rfl := Option.some.inj h
      rw [hmodel]
      rfl

/-- The root of a failure is neither a construction that was given up before nor an entry point that
has no function. -/
theorem ne_of_root {e : Error} (h : e.Root Fault.Found) :
    (∀ k, e ≠ .poisoned k) ∧ ∀ name, e ≠ .fault (.unreachableEntryPoint name) := by
  refine ⟨?_, ?_⟩ <;> rintro _ rfl <;> exact h

theorem compile_of_find? (h : requested.find? (·.model ≠ .fragment) = some entry) (config : Config) :
    compile a requested config =
      .returned (.error (.fault (.unsupportedExecutionModel entry.model))) := by
  rw [← find?_firstAppearances] at h
  simp only [compile, compileFrom, checkModels_eq_error h]

/-- Fragment shaders fail to compile as the first of them does that cannot be constructed alone. -/
theorem compileError?_of_fragment (hnumbered : a.Numbered)
    (hmodels : ∀ entry ∈ requested, entry.model = .fragment) (config : Config) :
    (∃ result, compile a requested config = .returned result) ∧
      compileError? a requested config = requested.findSome? (aloneError? a) ∧
      ∀ e, compileError? a requested config = some e → e.Root Fault.Found := by
  replace hmodels : ∀ entry ∈ firstAppearances requested, entry.model = .fragment :=
    fun entry hentry => hmodels entry (mem_firstAppearances.mp hentry)
  -- Repeated requests are dropped first, and a repeated one cannot be the first to fail.
  have hchecked := checkModels_of_fragment hmodels
  rw [← findSome?_firstAppearances, compileError?]
  simp only [compile, compileFrom, hchecked]
  rcases outcome_entryPoints hnumbered (s := Session.start) (Regime.Clean.start _)
      (firstAppearances requested) with
    ⟨s', hrun, hnone⟩ | ⟨e, s', hrun, hsome, hroot⟩
  · obtain ⟨ready, hassembled⟩ := exists_assemble_eq_ok hnumbered hmodels hrun config
    rw [hrun]
    dsimp only
    rw [hassembled, hnone]
    exact ⟨⟨_, rfl⟩, rfl, fun e he => by cases he⟩
  · rw [hrun, hsome]
    exact ⟨⟨_, rfl⟩, rfl, fun e' heq => Option.some.inj heq ▸ hroot⟩

/-- Compiling on one thread ends.  Entry points that are not all fragment shaders are rejected for the
first that is none; fragment shaders fail to compile if and only if one of them fails alone, and then
as the first of these does, whatever has been constructed before it.  The error is never that something
has been given up before, nor that an entry point has no function. -/
theorem compile_fails_as_alone {a : Assembly} (hbuilt : a.Built) (requested : List EntryPoint)
    (config : Config) :
    (∃ result, compile a requested config = .returned result) ∧
      (∀ entry, requested.find? (·.model ≠ .fragment) = some entry →
        compileError? a requested config = some (.fault (.unsupportedExecutionModel entry.model))) ∧
      ((∀ entry ∈ requested, entry.model = .fragment) →
        compileError? a requested config =
          requested.findSome? fun entry => compileError? a [entry] config) ∧
      ∀ e, compileError? a requested config = some e →
        (∀ k, e ≠ .poisoned k) ∧ ∀ name, e ≠ .fault (.unreachableEntryPoint name) := by
  cases hfind : requested.find? (·.model ≠ .fragment) with
  | some entry =>
    have hcompile := compile_of_find? (a := a) hfind config
    have herror : compileError? a requested config =
        some (.fault (.unsupportedExecutionModel entry.model)) := by
      rw [compileError?, hcompile]
    refine ⟨⟨_, hcompile⟩, fun _ heq => Option.some.inj heq ▸ herror, fun hmodels => ?_, fun e he => ?_⟩
    · have hmodel := List.find?_some hfind
      simp [hmodels entry (List.mem_of_find?_eq_some hfind)] at hmodel
    · obtain rfl := Option.some.inj (herror.symm.trans he)
      exact ⟨nofun, nofun⟩
  | none =>
    have hmodels : ∀ entry ∈ requested, entry.model = .fragment := fun entry hentry => by
      simpa using List.find?_eq_none.mp hfind entry hentry
    obtain ⟨hreturned, herror, hroot⟩ := compileError?_of_fragment hbuilt.numbered hmodels config
    refine ⟨hreturned, nofun, fun _ => ?_, fun e he => ne_of_root (hroot e he)⟩
    -- An entry point alone is a list of one, so the same theorem says how it fails.
    have halone : ∀ entry ∈ requested, compileError? a [entry] config = aloneError? a entry := by
      intro entry hentry
      have hmodel : ∀ entry' ∈ [entry], entry'.model = .fragment := by simp [hmodels entry hentry]
      rw [(compileError?_of_fragment hbuilt.numbered hmodel config).2.1, List.findSome?_singleton]
    rw [herror, ← List.head?_filterMap, ← List.head?_filterMap, List.filterMap_congr halone]

section Tangle

open Il (Code Operation)

/-- A static method without parameters that calls others. -/
def calling (id : MethodId) (name : String) (callees : List UInt64) : MethodDef where
  id := id
  owner := ⟨0⟩
  name := name
  fullName := "F::" ++ name
  returnType := none
  parameters := []
  locals := []
  attributes := [.static]
  code := callees.foldl (fun code callee => code.push (Operation.call none callee []).encode) .empty

/-- A type with four methods, of which one calls nothing. -/
def tangleWith (spins strays mixes : List UInt64) : Assembly where
  name := "tangle"
  types := #[⟨⟨0⟩, "F", .plain, [], []⟩]
  fields := #[]
  methods := #[calling ⟨0⟩ "spin" spins, calling ⟨1⟩ "calm" [], calling ⟨2⟩ "stray" strays,
    calling ⟨3⟩ "mixed" mixes]
  typeNames := [("F", ⟨0⟩)]

/-- One method calls itself, one what does not exist, and one calls the first two. -/
def tangle : Assembly :=
  tangleWith [0] [7] [1, 0]

theorem tangle_built : tangle.Built := by
  have htype := Assembly.Built.addType (.empty "tangle") "F" .plain []
  have hspin := htype.defineMethod ⟨0⟩ "spin" none [] [.static] rfl
  have hcalm := hspin.defineMethod ⟨0⟩ "calm" none [] [.static] rfl
  have hstray := hcalm.defineMethod ⟨0⟩ "stray" none [] [.static] rfl
  have hdefined : (tangleWith [] [] []).Built :=
    hstray.defineMethod ⟨0⟩ "mixed" none [] [.static] rfl
  have hspins : (tangleWith [0] [] []).Built :=
    hdefined.push ⟨0⟩ (Operation.call none 0 []).encode rfl
  have hstrays : (tangleWith [0] [7] []).Built :=
    hspins.push ⟨2⟩ (Operation.call none 7 []).encode rfl
  have hmixes : (tangleWith [0] [7] [1]).Built :=
    hstrays.push ⟨3⟩ (Operation.call none 1 []).encode rfl
  exact hmixes.push ⟨3⟩ (Operation.call none 0 []).encode rfl

/-- After one that compiles, what calls the one that calls itself fails as alone, and so does what calls
nothing that exists, whichever comes first; a compute shader is rejected whatever else there is. -/
theorem tangle_fails_as_alone :
    tangle.Built ∧
      compileError? tangle [⟨⟨1⟩, .fragment⟩, ⟨⟨3⟩, .fragment⟩, ⟨⟨2⟩, .fragment⟩] .standard =
        some (.cyclic (.function spinning.key)) ∧
      compileError? tangle [⟨⟨1⟩, .fragment⟩, ⟨⟨2⟩, .fragment⟩, ⟨⟨3⟩, .fragment⟩] .standard =
        some (.fault (.unresolvedMethod 7)) ∧
      compileError? tangle [⟨⟨2⟩, .fragment⟩, ⟨⟨3⟩, .glCompute⟩] .standard =
        some (.fault (.unsupportedExecutionModel .glCompute)) := by
  have hfails := compile_fails_as_alone tangle_built
  have hcalm : compileError? tangle [⟨⟨1⟩, .fragment⟩] .standard = none := by decide +kernel
  have hstray : compileError? tangle [⟨⟨2⟩, .fragment⟩] .standard =
      some (.fault (.unresolvedMethod 7)) := by decide +kernel
  have hmixed : compileError? tangle [⟨⟨3⟩, .fragment⟩] .standard =
      some (.cyclic (.function spinning.key)) := by decide +kernel
  refine ⟨tangle_built, ?_, ?_, (hfails _ _).2.1 ⟨⟨3⟩, .glCompute⟩ rfl⟩
  · rw [(hfails _ _).2.2.1 (by decide), List.findSome?_cons, hcalm, List.findSome?_cons, hmixed]
  · rw [(hfails _ _).2.2.1 (by decide), List.findSome?_cons, hcalm, List.findSome?_cons, hstray]

end Tangle

end ShaderLowering
