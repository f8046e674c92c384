import ShaderLowering.Lowering.Request
import ShaderLowering.Proofs.Layout.Placement
import ShaderLowering.Proofs.Lowering.Declarations
import ShaderLowering.Proofs.Lowering.Pools
import ShaderLowering.Proofs.Semantics.Entry

/-!
# Translation preserves meaning

A function that a session or a pool of workers delivers, linked against the declarations of the run and
the functions that it calls, does what the method of its key does: on the same arguments and the same
values of the static fields both come to an end, return the same value and leave the same values behind
(`function_preserves`).

That the run of a session is one of a pool with one worker is `Task.execute_follow`; that what a run
writes is what the forms say is `ledger_lawful`; that forms do as methods do is `Lowered.alike`.  What
is left for this module is to read the words back.
-/

namespace ShaderLowering

open Construction
open Relation (ReflTransGen)
open Spirv

/-! ## Functions that are delivered -/

/-- A run comes to its end, has made a function for a key, and has written what it has written. -/
inductive Delivered (a : Assembly) (key : FunctionKey) : Function → Emission → Prop
  /-- A session is asked for the function. -/
  | session {f : Function}
      (hask : (Session.start.ask a (.function key)).1 = .returned (.ok (.function f))) :
      Delivered a key f (Session.start.ask a (.function key)).2.shared
  /-- Workers have been asked for functions, of which it is one. -/
  | pool {f : Function} {m : Machine lowering Emission Unit} {dealt : List (List FunctionKey)}
      {schedule : List ThreadId}
      (hrun : (Machine.start (dealt.map Construct.functions) Emission.empty).follow (recipes a)
        schedule = m)
      (hover : m.isOver = true) (hready : m.world.ready? (.function key) = some f) :
      Delivered a key f m.world.shared

section Delivered

variable {a : Assembly} {key : FunctionKey} {f : Function} {e : Emission} {h : History}

/-- What is known of a function that is delivered. -/
structure Accounted (a : Assembly) (key : FunctionKey) (f : Function) (e : Emission) (h : History) :
    Prop where
  account : Account a h e
  key : f.key = key
  lowered : Lowered a (names h) f
  fields : ∀ field, Name.global field ∈ names h → Constructible a (.variable field) →
    field ∈ exposed h

/-- What is known of a function that is ready when all workers have come to their end. -/
theorem accounted_of_governed {α : Type} {roots : Key → Prop}
    {P : ThreadId → History → Result lowering α → Prop} {m : Machine lowering Emission α}
    (hm : (ledger a roots).Governed P m h) (hover : m.isOver = true)
    (hkey : f.key = key) (hlowered : Lowered a (names h) f) : Accounted a key f m.world.shared h where
  account := hm.inv
  key := hkey
  lowered := hlowered
  fields _ hmem hconstructible := exposed_of_mem hm hover hmem hconstructible

theorem Delivered.accounted (hdelivered : Delivered a key f e)
    (hissued : e.ids.issued < UInt32.size) : ∃ h, Accounted a key f e h := by
  cases hdelivered with
  | session hask =>
    -- A session is a machine with one thread.
    obtain ⟨schedule, w, hfollow, hmirrors⟩ := Task.execute_follow (Prod.ext hask rfl)
    have hshared : w.shared = (Session.start.ask a (.function key)).2.shared := hmirrors.shared
    rw [← hshared] at hissued ⊢
    have hmakes : ∀ task ∈ [Request.task a (.function key)],
        Makes a (fun k => k = .function key) .top True [] task fun h' reply =>
          ∃ f, reply = .function f ∧ f.key = key ∧ Lowered a (names h') f := by
      intro task htask
      obtain rfl := List.mem_singleton.mp htask
      refine .map (.function ⟨_, rfl, .refl⟩ trivial fun _ => trivial) ?_
      intro h' f h'' ⟨_, hkey, hlowered⟩ hquiet
      exact ⟨f, rfl, hkey, hlowered.later hquiet.prefix⟩
    obtain ⟨h, hgoverned⟩ := governed_of_makes hmakes schedule
      (by rw [hfollow]; exact hissued)
    rw [hfollow] at hgoverned
    obtain ⟨r, hr, hreply⟩ := hgoverned.ended hissued (t := 0) rfl rfl
    obtain rfl := Option.some.inj hr
    obtain ⟨f', heq, hkey, hlowered⟩ := hreply
    obtain rfl := Reply.function.inj heq
    exact ⟨h, accounted_of_governed hgoverned rfl hkey hlowered⟩
  | @pool m dealt schedule hrun hover hready =>
    have hmakes : ∀ task ∈ dealt.map Construct.functions,
        Makes a (fun k => ∃ keys ∈ dealt, ∃ key ∈ keys, k = .function key) .top True [] task
          fun _ _ => True := by
      intro task htask
      obtain ⟨keys, hkeys, rfl⟩ := List.mem_map.mp htask
      refine .mono (.weaken (makes_functions fun key hkey => ?_) fun _ => trivial)
        fun _ _ _ _ => trivial
      exact ⟨keys, hkeys, key, hkey, rfl⟩
    obtain ⟨h, hgoverned⟩ := governed_of_makes hmakes schedule
      (by rw [hrun]; exact hissued)
    rw [hrun] at hgoverned
    have hright := (hgoverned.ready _ _ (World.ready?_eq_some.mp hready)).right
    exact ⟨h, accounted_of_governed hgoverned hover hright.1 hright.2⟩

/-! ## Reading the words back -/

theorem findSome?_eq_some {α β : Type} {F : α → Option β} {xs : List α} {x : α} {v : β} (hx : x ∈ xs)
    (hv : F x = some v) (hunique : ∀ y ∈ xs, ∀ u, F y = some u → u = v) : xs.findSome? F = some v := by
  cases hfound : xs.findSome? F with
  | none =>
    rw [List.findSome?_eq_none_iff.mp hfound x hx] at hv
    cases hv
  | some u =>
    obtain ⟨y, hy, hu⟩ := List.exists_of_findSome?_eq_some hfound
    rw [hunique y hy u hu]

namespace Accounted

variable (hf : Accounted a key f e h) (hsize : (names h).length < UInt32.size)

include hf

/-- The declarations read back as the lines of the names. -/
theorem declarations_eq (hfits : ∀ i ∈ e.declared, i.Fits) :
    (Target.Program.ofFunction e f).declarations =
      ((names h).filterMap (Name.form? a)).map (Line.under (names h)) := by
  rw [← hf.account.declared_eq]
  exact Instruction.decode_flatMap_encode hfits

include hsize

theorem provides (hfits : ∀ i ∈ e.declared, i.Fits) :
    Provides (names h) (Target.Program.ofFunction e f) where
  constant type bits hmem := by
    rw [Target.Program.constant?, hf.declarations_eq hfits]
    refine findSome?_eq_some (x := Line.under (names h) ⟨.constant, [.name (.value type),
      .name (.constant type bits), .word bits]⟩) ?_ ?_ ?_
    · exact List.mem_map_of_mem (List.mem_filterMap.mpr ⟨_, hmem, rfl⟩)
    · simp [Line.under, Operand.under, Instruction.op?]
    · intro i hi u hu
      obtain ⟨line, hline, rfl⟩ := List.mem_map.mp hi
      obtain ⟨n, hn, hform⟩ := List.mem_filterMap.mp hline
      have hresult := Name.resultId?_of_form? hform (names h)
      split at hu
      · next type' id' bits' hop hoperands =>
        split at hu
        · next hid =>
          have hword : wordOf (names h) n = wordOf (names h) (.constant type bits) := by
            rw [Layout.resultId?_eq .named hop, hoperands] at hresult
            exact (Option.some.inj hresult).symm.trans hid
          obtain rfl := distinct_of_length hsize n hn _ hmem hword
          obtain rfl := Option.some.inj hform
          simp only [Line.under, List.map_cons, Operand.under, List.map_nil, List.cons.injEq]
            at hoperands
          rw [hoperands.2.2.1]
          exact (Option.some.inj hu).symm
        · cases hu
      · cases hu
  global field hmem := by
    refine ⟨Line.under (names h) ⟨.variable, [.name (.pointer (a.storage field) (a.fieldType field)),
      .name (.global field), .word (a.storage field).code]⟩, ?_, by simp, rfl⟩
    rw [hf.declarations_eq hfits]
    exact List.mem_map_of_mem (List.mem_filterMap.mpr ⟨_, hmem, rfl⟩)

/-- The function that is delivered and those that it calls are found by their ids. -/
theorem function?_eq {g : Function} (hbelow : f.Below g)
    (hcalls : ∀ g, f.Below g → g.CallsFit) :
    (Target.Program.ofFunction e f).function? g.id.raw =
      some ((a.lines g.key).tail.map (Line.under (names h))) := by
  have hentries : ∀ f' ∈ [f], Lowered a (names h) f' := by simpa using hf.lowered
  have hmem : ∀ g', g' ∈ Layout.callOrder [f] ↔ f.Below g' := fun g' => by
    rw [Lowered.mem_callOrder_iff hsize hentries]
    simp
  have hblock : ∀ g', f.Below g' → ∃ first, first.op? = some .function ∧
      first.operands[1]? = some g'.id.raw ∧
      Instruction.decode g'.body = first :: (a.lines g'.key).tail.map (Line.under (names h)) := by
    intro g' hg'
    have hlowered := hf.lowered.reach hg'
    obtain ⟨type, signature, hlines⟩ := hlowered.lines_eq
    refine ⟨Line.under (names h) ⟨.function, [.name type, .name (.own g'.key 0),
      .word noFunctionControl, .name signature]⟩, by simp, ?_, ?_⟩
    · simp [Line.under, Operand.under, hlowered.ids.1]
    · rw [hlowered.decode_body (hcalls g' hg')]
      exact congrArg (List.map (Line.under (names h))) hlines
  rw [Target.Program.function?, Target.Program.ofFunction]
  -- Ids tell the functions of the tree apart, so only its own block is found under the id.
  obtain ⟨first, hop, hid, hdecode⟩ := hblock g hbelow
  refine findSome?_eq_some (List.mem_map_of_mem ((hmem g).mpr hbelow)) ?_ ?_
  · rw [hdecode]
    simp [hop, hid]
  · intro block hmem' u hu
    obtain ⟨g', hg', rfl⟩ := List.mem_map.mp hmem'
    obtain ⟨first', hop', hid', hdecode'⟩ := hblock g' ((hmem g').mp hg')
    rw [hdecode'] at hu
    dsimp only at hu
    split at hu
    · next hsame =>
      rw [hid'] at hsame
      have hids : g'.id = g.id := congrArg Id.mk (Option.some.inj hsame.2)
      obtain rfl := (hf.lowered.reach ((hmem g').mp hg')).eq_of_id hsize (hf.lowered.reach hbelow) hids
      exact (Option.some.inj hu).symm
    · cases hu

/-- A function that is delivered is linked. -/
theorem linked (hfits : ∀ i ∈ e.declared, i.Fits) (hcalls : ∀ g, f.Below g → g.CallsFit) :
    Linked a (names h) (exposed h) (Target.Program.ofFunction e f) f where
  distinct := distinct_of_length hsize
  provides := hf.provides hsize hfits
  blocks _ hbelow := hf.function?_eq hsize hbelow hcalls
  fields := hf.fields
  exposed field hfield := by
    obtain ⟨k, hmem⟩ := mem_exposed.mp hfield
    exact (hf.account.exposures k field hmem).2.1

end Accounted

end Delivered

/-! ## The same values -/

/-- The variables of a module hold what the static fields do. -/
def Emission.Shares {V : Type} (e : Emission) (globals : FieldId → V) (memory : Word → V) : Prop :=
  ∀ v ∈ e.globals, memory v.id.raw = globals v.field

theorem Account.shares_iff {a : Assembly} {h : History} {e : Emission} (hacc : Account a h e)
    {V : Type} {globals : FieldId → V} {memory : Word → V} :
    e.Shares globals memory ↔ Agree (names h) (exposed h) globals memory := by
  rw [Emission.Shares, hacc.globals]
  exact List.forall_mem_map

/-- A function does as its method does: on the same arguments and the same values of the static fields
each has one result, and these are the same returned value and the same values of the static fields. -/
theorem function_preserves {a : Assembly} (hbuilt : a.Built) {key : FunctionKey}
    (hkey : key.Obtained a) {f : Function} {e : Emission} (hdelivered : Delivered a key f e)
    (hlimits : e.WithinLimits [f]) {m : MethodDef} (hm : a.method? key.method = some m)
    (hreturns : ∀ m', ReflTransGen (MethodDef.Calls a) m m' → m'.Returns) {V : Type} (x : Values V)
    {arguments : List V} (harguments : arguments.length = key.parameters.length)
    {globals : FieldId → V} {memory : Word → V} (hshares : e.Shares globals memory) :
    ∃ r globals' memory',
      (∀ r₁ globals₁, Source.RunsMethod a x m arguments globals r₁ globals₁ ↔
        r₁ = r ∧ globals₁ = globals') ∧
      (∀ r₁ memory₁, Target.RunsFunction x (.ofFunction e f) f.id.raw arguments memory r₁ memory₁ ↔
        r₁ = r ∧ memory₁ = memory') ∧
      e.Shares globals' memory' ∧
      ∀ field, (∀ v ∈ e.globals, v.field ≠ field) → globals' field = globals field := by
  have hissued : e.ids.issued < UInt32.size := Nat.lt_of_succ_lt hlimits.ids
  obtain ⟨h, hf⟩ := hdelivered.accounted hissued
  have hsize : (names h).length < UInt32.size := hf.account.issued ▸ hissued
  have hlinked := hf.linked hsize hlimits.declarations
    fun g hbelow => hlimits.calls f (List.mem_singleton_self f) g hbelow
  have hlength := hkey.length hbuilt.numbered hm
  have hparameters := hf.key
  subst hparameters
  obtain ⟨r, globals', memory', hsource, htarget, hagree, hframe⟩ :=
    hf.lowered.alike (x := x) hbuilt.numbered hm hlength hreturns hlinked arguments globals memory
      (harguments.trans hlength) (hf.account.shares_iff.mp hshares)
  rw [wordOf, ← hf.lowered.ids.1] at htarget
  refine ⟨r, globals', memory', fun r₁ globals₁ => ⟨fun hruns => ?_, ?_⟩,
    fun r₁ memory₁ => ⟨fun hruns => ?_, ?_⟩, hf.account.shares_iff.mpr hagree, fun field hother => ?_⟩
  · exact hruns.unique hsource
  · rintro ⟨rfl, rfl⟩
    exact hsource
  · obtain ⟨block, hblock, hruns⟩ := hruns
    obtain ⟨block', hblock', hruns'⟩ := htarget
    obtain rfl := Option.some.inj (hblock.symm.trans hblock')
    exact hruns.unique hruns'
  · rintro ⟨rfl, rfl⟩
    exact htarget
  · refine hframe field fun hexposed => hother (a.globalVariable (names h) field) ?_ rfl
    rw [hf.account.globals]
    exact List.mem_map_of_mem hexposed

/-! ## A method that keeps its argument -/

section Keeper

open Il (Code Operation)

/-- Puts its argument into the static field of its class and hands it back. -/
def keep : MethodDef where
  id := ⟨0⟩
  owner := ⟨0⟩
  name := "keep"
  fullName := "T::keep"
  returnType := some ⟨0⟩
  parameters := [⟨0⟩]
  locals := []
  attributes := [.static]
  code := (Code.empty.push (Operation.storeField 0 0).encode).push
    (Operation.returnValue (some 0)).encode

/-- One type, one static field of it, and the method. -/
def keeper : Assembly where
  name := "keeper"
  types := #[⟨⟨0⟩, "T", .plain, [], [⟨0⟩]⟩]
  fields := #[⟨⟨0⟩, ⟨0⟩, "kept", ⟨0⟩, [.static]⟩]
  methods := #[keep]
  typeNames := [("T", ⟨0⟩)]

theorem keeper_built : keeper.Built := by
  have htype := Assembly.Built.addType (.empty "keeper") "T" .plain []
  have hfield := htype.defineField ⟨0⟩ ⟨0⟩ "kept" [.static] rfl
  have hmethod := hfield.defineMethod ⟨0⟩ "keep" (some ⟨0⟩) [⟨0⟩] [.static] rfl
  have hstore := hmethod.push ⟨0⟩ (Operation.storeField 0 0).encode rfl
  exact hstore.push ⟨0⟩ (Operation.returnValue (some 0)).encode rfl

theorem keep_returns : ∀ m, ReflTransGen (MethodDef.Calls keeper) keep m → m.Returns := by
  have hcode : keep.code.instructions =
      [(Operation.storeField 0 0).encode, (Operation.returnValue (some 0)).encode] := rfl
  intro m hpath
  rcases hpath.cases_head with rfl | ⟨target, ⟨i, hi, result, wire, slots, hcall, -⟩, -⟩
  · refine ⟨(Operation.returnValue (some 0)).encode, ?_, .returnValue (some 0), rfl, trivial⟩
    rw [hcode]
    simp
  · rw [hcode] at hi
    rcases List.mem_cons.mp hi with rfl | hi
    · cases hcall
    · obtain rfl := List.mem_singleton.mp hi
      cases hcall

/-- The function of the method. -/
def kept : Function where
  id := ⟨3⟩
  key := FunctionKey.ofMethod keep
  returnType := ⟨1⟩
  body := [327734, 1, 3, 0, 2, 196663, 1, 4, 131320, 5, 262203, 6, 7, 7, 196670, 7, 4, 262205, 1, 10,
    7, 196670, 9, 10, 262205, 1, 11, 7, 131326, 11, 65592]
  callees := []

/-- What a session has written when it has made the function. -/
def keeperEmission : Emission :=
  (Session.start.ask keeper (.function (FunctionKey.ofMethod keep))).2.shared

theorem kept_delivered : Delivered keeper (FunctionKey.ofMethod keep) kept keeperEmission :=
  .session (by decide +kernel)

theorem keeper_withinLimits : keeperEmission.WithinLimits [kept] where
  ids := by decide +kernel
  declarations i hi := by
    have hall : keeperEmission.declared.all (fun i => i.operands.length + 1 < UInt16.size) = true := by
      decide +kernel
    have hlength := List.all_eq_true.mp hall i hi
    simpa [Instruction.Fits] using hlength
  calls f hf g hbelow := by
    obtain rfl := List.mem_singleton.mp hf
    rcases hbelow.cases_head with rfl | ⟨g', hg', -⟩
    · intro callee hcallee
      cases hcallee
    · cases hg'

/-- The function does as the method where the argument is 5 and the static field holds 0. -/
theorem keeper_preserved :
    ∃ r globals' memory',
      (∀ r₁ globals₁, Source.RunsMethod keeper (⟨0, id⟩ : Values Word) keep [5] (fun _ => 0) r₁
        globals₁ ↔ r₁ = r ∧ globals₁ = globals') ∧
      (∀ r₁ memory₁, Target.RunsFunction ⟨0, id⟩ (.ofFunction keeperEmission kept) kept.id.raw [5]
        (fun _ => 0) r₁ memory₁ ↔ r₁ = r ∧ memory₁ = memory') ∧
      keeperEmission.Shares globals' memory' ∧
      ∀ field, (∀ v ∈ keeperEmission.globals, v.field ≠ field) → globals' field = 0 := by
  have hshares : keeperEmission.Shares (fun _ => (0 : Word)) (fun _ => 0) := fun _ _ => rfl
  have hfound : keeper.method? ⟨0⟩ = some keep := rfl
  exact function_preserves keeper_built (.ofMethod hfound) kept_delivered keeper_withinLimits hfound
    keep_returns ⟨0, id⟩ rfl hshares

end Keeper

end ShaderLowering
