import ShaderLowering.Proofs.Grammar.Formation

/-!
# What constructions add to the inventory

Most of a construction takes ids and asks for other entities.  What such a task ends with is told from
what it is answered, in the light of an inventory (`Construct.Yields`); if the same can be said in the
light of every later inventory then it is safe under the discipline (`safe_of_yields`).  What is left are the
few actions by which types, constants and variables are declared and variables are exposed, with one rule
each.
-/

namespace ShaderLowering

open Construction
open Spirv

/-! ## The discipline -/

/-- A variable that is ready has been declared and exposed, and nothing else has been done for it. -/
def Complete (a : Assembly) (h : Inventory) : (k : Key) → k.Value → Prop
  | .variable field, v => ∃ pointerType, h.of (.variable field) =
      [.declared (.variable pointerType (a.storage field)) v.id, .exposed v]
  | _, _ => True

/-- What is ready is in the inventory, and formed. -/
structure Shown (a : Assembly) (h : Inventory) (k : Key) (v : k.Value) : Prop where
  had : Had h k v
  formed : FormedFor a h k v
  complete : Complete a h k v

/-- The discipline of the inventory. -/
@[reducible] def inventory (a : Assembly) (trusted : Prop) : Discipline lowering Emission Item where
  recipes := recipes a
  inv := Tallies a
  within _ := True
  known h k := ∀ i ∈ k.components, Inventory.Types h i
  needs _ _ := True
  holds := Shown a
  fails _ := True
  trusted := trusted

theorem Shown.append {a : Assembly} {h l : Inventory} {k : Key} {v : k.Value}
    (hl : ∀ note ∈ l, note.1 ≠ k) (hv : Shown a h k v) : Shown a (h ++ l) k v := by
  have hsubset := List.subset_append_left h l
  refine ⟨hv.had.mono hsubset, hv.formed.mono hsubset, ?_⟩
  have hcomplete := hv.complete
  cases k with
  | «variable» field =>
    rw [Complete, Inventory.of_append, Inventory.of_eq_nil hl, List.append_nil]
    exact hcomplete
  | _ => trivial

/-! ## Tasks that declare nothing -/

/-- What an action answers is in the inventory. -/
def Answered (h : Inventory) : (action : Action) → action.Answer → Prop
  | .freshId, id => h.Taken id
  | _, _ => True

/-- A task takes ids and asks for keys with components in the inventory, and ends with a value of which
`R` holds, as long as what it is answered is in the inventory. -/
def Construct.Yields (h : Inventory) {α : Type} : Construct α → (α → Prop) → Prop
  | .done result, R => ∀ v, result = .ok v → R v
  | .panic, _ => False
  | .act action next, R => action = .freshId ∧
      ∀ answer, Answered h action answer → Construct.Yields h (next answer) R
  | .peek _ _, _ => False
  | .request k next, R => (∀ i ∈ k.components, h.Types i) ∧
      (∀ v, Had h k v → Construct.Yields h (next (.ok v)) R) ∧
      ∀ e, Construct.Yields h (next (.error e)) R

namespace Construct.Yields

variable {h : Inventory} {α β : Type} {t : Construct α} {f : α → Construct β} {R R' : α → Prop}
  {S : β → Prop}

theorem mono (ht : t.Yields h R) (himp : ∀ v, R v → R' v) : t.Yields h R' := by
  induction t with
  | done result => exact fun v hv => himp v (ht v hv)
  | panic => exact ht
  | act action next ih => exact ⟨ht.1, fun answer hanswer => ih answer (ht.2 answer hanswer)⟩
  | peek k next => exact ht
  | request k next ih =>
    exact ⟨ht.1, fun v hv => ih _ (ht.2.1 v hv), fun e => ih _ (ht.2.2 e)⟩

theorem bind (ht : t.Yields h R) (hf : ∀ v, R v → (f v).Yields h S) : (t >>= f).Yields h S := by
  change Construct.Yields h (t.bind f) S
  induction t with
  | done result =>
    cases result with
    | ok v => exact hf v (ht v rfl)
    | error e => exact nofun
  | panic => exact ht
  | act action next ih => exact ⟨ht.1, fun answer hanswer => ih answer (ht.2 answer hanswer)⟩
  | peek k next => exact ht
  | request k next ih =>
    exact ⟨ht.1, fun v hv => ih _ (ht.2.1 v hv), fun e => ih _ (ht.2.2 e)⟩

theorem pure {v : α} (hv : R v) : Construct.Yields h (Pure.pure v : Construct α) R := by
  intro v' heq
  obtain rfl := Except.ok.inj heq
  exact hv

theorem fail (fault : Fault) : Construct.Yields h (Task.fail (I := lowering) fault) R :=
  nofun

theorem ofOption (fault : Fault) {o : Option α} (ho : ∀ v, o = some v → R v) :
    Construct.Yields h (Task.ofOption (I := lowering) fault o) R := by
  cases o with
  | none => exact nofun
  | some v => exact pure (ho v rfl)

theorem map (ht : t.Yields h R) {k : α → β} (hk : ∀ v, R v → S (k v)) : (k <$> t).Yields h S := by
  rw [← bind_pure_comp]
  exact ht.bind fun v hv => pure (hk v hv)

theorem freshId : Construct.freshId.Yields h h.Taken :=
  ⟨rfl, fun _ hid => pure hid⟩

theorem ask {k : Key} (hk : ∀ i ∈ k.components, h.Types i) :
    Construct.Yields h (Task.ask (I := lowering) k) (Had h k) :=
  ⟨hk, fun _ hv => pure hv, fun _ => nofun⟩

theorem mapM {k : α → Construct β} (xs : List α) (hk : ∀ x, (k x).Yields h S) :
    (xs.mapM k).Yields h fun vs => ∀ v ∈ vs, S v := by
  induction xs with
  | nil => exact pure nofun
  | cons x xs ih =>
    rw [List.mapM_cons]
    refine .bind (hk x) fun v hv => .bind ih fun vs hvs => pure ?_
    exact List.forall_mem_cons.mpr ⟨hv, hvs⟩

theorem shape {s : Shape} (hs : ∀ i ∈ s.components, h.Types i) :
    (Construct.shape s).Yields h h.Types :=
  ask (k := .shape s) hs

theorem type (a : Assembly) (id : TypeId) : (Construct.type a id).Yields h h.Types :=
  .bind (ofOption _ fun _ _ => trivial) fun _ _ => ask (k := .type id) nofun

theorem returnType (a : Assembly) (id : Option TypeId) :
    (Construct.returnType a id).Yields h h.Types := by
  cases id with
  | none => exact shape nofun
  | some id => exact type a id

theorem representation? (a : Assembly) (t : TypeDef) (name : String) :
    (Construct.representation? a t name).Yields h fun resolved => ∀ i, resolved = some i → h.Types i := by
  have hsome : ∀ {s : Shape}, (∀ i ∈ s.components, h.Types i) →
      Construct.Yields h (some <$> Construct.shape s) fun resolved => ∀ i, resolved = some i → h.Types i :=
    fun hs => .map (shape hs) fun v hv i hi => Option.some.inj hi ▸ hv
  unfold Construct.representation?
  split
  · exact pure nofun
  · exact fail _
  · exact hsome nofun
  · exact hsome nofun
  · exact hsome nofun
  · refine .bind (ofOption _ fun _ _ => trivial) fun element _ => .bind (type a _) fun i hi => ?_
    refine .bind (ofOption _ fun _ _ => trivial) fun size _ => hsome fun j hj => ?_
    rwa [List.mem_singleton.mp hj]

end Construct.Yields

/-! ## Steps of a construction -/

section Steps

variable {a : Assembly} {trusted : Prop} {h : Inventory} {k : Key} {α : Type}
  {Q : Inventory → Result lowering α → Prop}

/-- Items that have nothing to do with variables can be put down under any key but that of a variable. -/
theorem Belongs.append {items : List Item} (hk : ∀ field, k ≠ .variable field) {item : Item}
    (hitem : item.IsPlain) (hitems : Belongs a k items) : Belongs a k (items ++ [item]) := by
  have hall : (∀ i ∈ items, i.IsPlain) → ∀ i ∈ items ++ [item], i.IsPlain := fun hitems =>
    List.forall_mem_append.mpr ⟨hitems, fun i hi => List.mem_singleton.mp hi ▸ hitem⟩
  cases k with
  | «variable» field => exact absurd rfl (hk field)
  | _ => exact hall hitems

/-- A task that declares nothing is safe if what it ends with is told in the light of every later
inventory. -/
theorem safe_of_yields {t : Construct α} {R : Inventory → α → Prop}
    (hk : ∀ field, k ≠ .variable field) (ht : ∀ h', h <+: h' → t.Yields h' (R h')) :
    (inventory a trusted).Safe (.construct k) h t fun h' result => ∀ v, result = .ok v → R h' v := by
  induction t generalizing h with
  | done result => exact fun h' e hlater => ht h' (Discipline.prefix_of_relies hlater.relies)
  | panic => exact (ht h List.prefix_rfl).elim
  | act action next ih =>
    intro h' e hlater _
    have hbefore := Discipline.prefix_of_relies hlater.relies
    obtain ⟨rfl, -⟩ := ht h' hbefore
    refine ⟨[(k, .taken e.ids.next.1)], by simp, ?_, ih _ fun h'' hlonger => ?_⟩
    · exact hlater.inv.note (List.append_nil _).symm (List.append_nil _).symm (.inr ⟨rfl, rfl⟩) nofun
        ((hlater.inv.belongs k).append hk trivial)
    · refine (ht h'' (hbefore.trans ((List.prefix_append _ _).trans hlonger))).2 _ ?_
      exact ⟨k, hlonger.subset (List.mem_append_right _ (List.mem_singleton_self _))⟩
  | peek k next => exact (ht h List.prefix_rfl).elim
  | request k' next ih =>
    intro h' e hlater _
    have hbefore := Discipline.prefix_of_relies hlater.relies
    refine ⟨(ht h' hbefore).1, trivial, fun result hanswer => ih _ fun h'' hlonger => ?_⟩
    have hyields := ht h'' (hbefore.trans hlonger)
    cases result with
    | ok v =>
      have hshown : Shown a h' k' v := hanswer
      exact hyields.2.1 v (hshown.had.mono hlonger.subset)
    | error failure => exact hyields.2.2 failure

theorem step_ask {j : Key} {next : j.Value → Construct α} (hj : ∀ i ∈ j.components, h.Types i)
    (hnext : ∀ h' v, h <+: h' → Inventory.of h' k = h.of k → Shown a h' j v →
      (inventory a trusted).Safe (.construct k) h' (next v) Q)
    (herror : ∀ h' e, Q h' (.error e)) :
    (inventory a trusted).Safe (.construct k) h (Task.ask (I := lowering) j >>= next) Q := by
  intro h' e hlater _
  have hbefore := Discipline.prefix_of_relies hlater.relies
  refine ⟨fun i hi => (hj i hi).mono hbefore.subset, trivial, fun result hanswer => ?_⟩
  cases result with
  | ok v => exact hnext h' v hbefore (Inventory.of_relies hlater.relies) hanswer
  | error failure => exact fun h'' _ _ => herror h'' failure

theorem step_declare {d : Declaration} {next : Id → Construct α} (hd : ∀ i ∈ d.components, h.Types i)
    (hbelongs : ∀ id, Belongs a k (h.of k) → Belongs a k (h.of k ++ [.declared d id]))
    (hnext : ∀ id h', h <+: h' → Inventory.of h' k = h.of k ++ [.declared d id] →
      (inventory a trusted).Safe (.construct k) h' (next id) Q) :
    (inventory a trusted).Safe (.construct k) h (Construct.declare d >>= next) Q := by
  intro h' e hlater _
  have hbefore := Discipline.prefix_of_relies hlater.relies
  have hsame := Inventory.of_relies hlater.relies
  refine ⟨[(k, .declared d e.ids.next.1)], by simp, ?_, ?_⟩
  · refine hlater.inv.note rfl (List.append_nil _).symm (.inr ⟨rfl, rfl⟩) (fun d' id heq i hi => ?_) ?_
    · obtain ⟨rfl, -⟩ := Item.declared.inj heq
      exact (hd i hi).mono hbefore.subset
    · rw [hsame]
      exact hbelongs _ (hsame ▸ hlater.inv.belongs k)
  · refine hnext _ _ (hbefore.trans (List.prefix_append _ _)) ?_
    rw [Inventory.of_append, Inventory.of_singleton, if_pos rfl, hsame]
    rfl

theorem step_decorate {target : Id} {location : Word} {next : Unit → Construct α}
    (hnext : ∀ h', h <+: h' → Inventory.of h' k = h.of k →
      (inventory a trusted).Safe (.construct k) h' (next ()) Q) :
    (inventory a trusted).Safe (.construct k) h (Construct.decorate target location >>= next) Q := by
  intro h' e hlater _
  refine ⟨[], nofun, ?_, ?_⟩
  · rw [List.append_nil]
    exact hlater.inv.quiet rfl rfl le_rfl
  · rw [List.append_nil]
    exact hnext h' (Discipline.prefix_of_relies hlater.relies) (Inventory.of_relies hlater.relies)

theorem step_expose {g : GlobalVariable} {next : Unit → Construct α}
    (hbelongs : Belongs a k (h.of k ++ [.exposed g]))
    (hnext : ∀ h', h <+: h' → Inventory.of h' k = h.of k ++ [.exposed g] →
      (inventory a trusted).Safe (.construct k) h' (next ()) Q) :
    (inventory a trusted).Safe (.construct k) h (Construct.expose g >>= next) Q := by
  intro h' e hlater _
  have hsame := Inventory.of_relies hlater.relies
  refine ⟨[(k, .exposed g)], by simp, ?_, ?_⟩
  · refine hlater.inv.note (List.append_nil _).symm rfl (.inl ⟨rfl, rfl⟩) nofun ?_
    rw [hsame]
    exact hbelongs
  · refine hnext _ ((Discipline.prefix_of_relies hlater.relies).trans (List.prefix_append _ _)) ?_
    rw [Inventory.of_append, Inventory.of_singleton, if_pos rfl, hsame]

theorem step_pure {v : α}
    (hQ : ∀ h', h <+: h' → Inventory.of h' k = h.of k → Q h' (.ok v)) :
    (inventory a trusted).Safe (.construct k) h (pure v) Q :=
  fun h' _ hlater => hQ h' (Discipline.prefix_of_relies hlater.relies) (Inventory.of_relies hlater.relies)

end Steps

/-! ## Types, constants and variables -/

section Factories

variable {a : Assembly} {trusted : Prop} {h : Inventory}

/-- What the factory of a key has to end with. -/
abbrev Stocks (a : Assembly) (trusted : Prop) (k : Key) (h : Inventory) (t : Construct k.Value) : Prop :=
  (inventory a trusted).Safe (.construct k) h t fun h' result => (inventory a trusted).Answers h' k result

/-- A task that declares nothing ends with what is had and formed in the light of every later inventory. -/
theorem stocks_of_yields {k : Key} {t : Construct k.Value} (hk : ∀ field, k ≠ .variable field)
    (ht : ∀ h', h <+: h' → t.Yields h' (Had h' k))
    (hformed : ∀ h', Task.Delivers (I := lowering) (FormedFor a h') t (FormedFor a h' k)) :
    Stocks a trusted k h t := by
  have hsafe : (inventory a trusted).Safe (.construct k) h t fun h' result =>
      (∀ v, result = .ok v → Had h' k v) ∧ ∀ v, result = .ok v → FormedFor a h' k v :=
    (safe_of_yields hk ht).delivers
      (fun _ _ _ _ hlonger hshown => hshown.formed.mono hlonger.subset) fun h' _ => hformed h'
  refine hsafe.mono fun h' result hresult => ?_
  cases result with
  | error e => trivial
  | ok v =>
    refine ⟨hresult.1 v rfl, hresult.2 v rfl, ?_⟩
    cases k with
    | «variable» field => exact absurd rfl (hk field)
    | _ => trivial

/-- Something is declared for a key that is not that of a variable. -/
theorem stocks_declare {k : Key} (hk : ∀ field, k ≠ .variable field) {d : Declaration}
    {next : Id → Construct k.Value} (hd : ∀ i ∈ d.components, h.Types i) (hplain : ¬d.IsVariable)
    (hnext : ∀ id h', (k, .declared d id) ∈ h' → Stocks a trusted k h' (next id)) :
    Stocks a trusted k h (Construct.declare d >>= next) := by
  refine step_declare hd (fun id hitems => hitems.append hk hplain) fun id h' _ hof => hnext id h' ?_
  rw [← Inventory.mem_of, hof]
  exact List.mem_append_right _ (List.mem_singleton_self _)

theorem stocks_type (id : TypeId) : Stocks a trusted (.type id) h ((recipes a).factory (.type id)) := by
  have hk : ∀ field, Key.type id ≠ .variable field := nofun
  simp only [recipes, Construct.typeDef]
  cases htype : a.type? id with
  | none => exact fun _ _ _ => trivial
  | some t =>
    change Stocks a trusted (.type id) h (Construct.buildType a t)
    unfold Construct.buildType
    split
    · exact fun _ _ _ => trivial
    · split
      · have hmembers : (inventory a trusted).Safe (.construct (.type id)) h
            ((a.instanceFields t).mapM fun field => Construct.type a field.type)
            fun h' result => ∀ v, result = .ok v → ∀ i ∈ v, Inventory.Types h' i :=
          safe_of_yields hk fun h' _ => .mapM _ fun field => .type a field.type
        refine .bind (hmembers.mono fun h' result hids => ?_)
        cases result with
        | error e => trivial
        | ok ids =>
          -- The struct's own components are the members' types, and those are all had by now.
          change Stocks a trusted (.type id) h' (Construct.declare (.struct ids) >>= pure)
          refine stocks_declare hk (hids ids rfl) not_false fun i h'' hmem =>
            step_pure fun h''' hlonger _ => ?_
          exact ⟨⟨_, _, hlonger.subset hmem, trivial⟩, trivial, trivial⟩
      · exact fun _ _ _ => trivial
      · next name _ =>
        refine stocks_of_yields hk (fun h' _ => ?_) fun h' => ?_
        · exact .bind (.representation? a t name) fun resolved hresolved => .ofOption _ hresolved
        · have hsilent := @silent_representation? (· = .freshId) a t name
          exact .of_confined (.bind hsilent fun _ => .ofOption _ _)

theorem stocks_shape (s : Shape) (hs : ∀ i ∈ s.components, h.Types i) :
    Stocks a trusted (.shape s) h ((recipes a).factory (.shape s)) := by
  have hk : ∀ field, Key.shape s ≠ .variable field := nofun
  change Stocks a trusted (.shape s) h (Construct.declare (.shape s) >>= pure)
  refine stocks_declare hk hs not_false fun i h' hmem => step_pure fun h'' hlonger _ => ?_
  have hmem' := hlonger.subset hmem
  exact ⟨⟨_, _, hmem', trivial⟩, Inventory.mem_declarations hmem', trivial⟩

theorem stocks_constant (type : Id) (bits : Word) (htype : h.Types type) :
    Stocks a trusted (.constant type bits) h ((recipes a).factory (.constant type bits)) := by
  have hk : ∀ field, Key.constant type bits ≠ .variable field := nofun
  change Stocks a trusted (.constant type bits) h (Construct.declare (.constant type bits) >>= pure)
  refine stocks_declare hk (fun i hi => List.mem_singleton.mp hi ▸ htype) not_false fun i h' hmem =>
    step_pure fun h'' hlonger _ => ?_
  have hmem' := hlonger.subset hmem
  exact ⟨⟨_, _, hmem', trivial⟩, Inventory.mem_declarations hmem', trivial⟩

theorem step_type {k : Key} {α : Type} {Q : Inventory → Result lowering α → Prop} (id : TypeId)
    {next : Id → Construct α}
    (hnext : ∀ h' i, h <+: h' → Inventory.of h' k = h.of k → Inventory.Types h' i →
      (inventory a trusted).Safe (.construct k) h' (next i) Q)
    (herror : ∀ h' e, Q h' (.error e)) :
    (inventory a trusted).Safe (.construct k) h (Construct.type a id >>= next) Q := by
  unfold Construct.type Construct.typeDef
  cases a.type? id with
  | none => exact fun h' _ _ => herror h' _
  | some t =>
    exact step_ask (j := .type id) nofun (fun h' i hlonger hof hi => hnext h' i hlonger hof hi.had) herror

theorem stocks_variable (field : FieldId) (hnone : h.of (.variable field) = []) :
    Stocks a trusted (.variable field) h ((recipes a).factory (.variable field)) := by
  simp only [recipes, Construct.fieldDef]
  cases hfield : a.field? field with
  | none => exact fun _ _ _ => trivial
  | some f =>
    have hstorage : f.storage.storageClass = a.storage field := by rw [Assembly.storage, hfield]
    change Stocks a trusted (.variable field) h (Construct.buildGlobal a field f)
    simp only [Construct.buildGlobal, hstorage]
    refine step_type f.type (fun h₁ valueType _ hof₁ hvalue => ?_) fun _ _ => trivial
    -- From here on nothing else of this key is put down: the rest is in the order the variable's
    -- items have in the inventory, `declared` and then `exposed`.
    have hcomponents : ∀ i ∈ (Shape.pointer (a.storage field) valueType).components,
        Inventory.Types h₁ i :=
      fun i hi => List.mem_singleton.mp hi ▸ hvalue
    refine step_ask (j := .shape (.pointer (a.storage field) valueType)) hcomponents
      (fun h₂ pointerType hlonger₂ hof₂ hpointer => ?_) fun _ _ => trivial
    replace hof₂ : Inventory.of h₂ (.variable field) = [] := hof₂.trans (hof₁.trans hnone)
    refine step_declare (fun i hi => List.mem_singleton.mp hi ▸ hpointer.had) (fun id _ => ?_)
      fun made h₃ hlonger₃ hof₃ => ?_
    · rw [hof₂]
      exact .declared pointerType id
    rw [hof₂] at hof₃
    -- Both branches of the decoration end alike, so the rest is proved for any longer inventory.
    have hexpose : ∀ h₄ : Inventory, h₃ <+: h₄ → h₄.of (.variable field) = Inventory.of h₃ (.variable field) →
        Stocks a trusted (.variable field) h₄ (do
          Construct.expose ⟨made, field, a.storage field, valueType⟩
          pure ⟨made, field, a.storage field, valueType⟩) := by
      intro h₄ hlonger₄ hof₄
      rw [hof₃] at hof₄
      refine step_expose ?_ fun h₅ hlonger₅ hof₅ => step_pure fun h₆ hlonger₆ hof₆ => ?_
      · rw [hof₄]
        exact .exposed pointerType made valueType
      · rw [hof₄] at hof₅
        have hall : Inventory.of h₆ (.variable field) = _ := hof₆.trans hof₅
        have hlonger : h₂ <+: h₆ :=
          hlonger₃.trans (hlonger₄.trans (hlonger₅.trans hlonger₆))
        have hdeclared : (Key.variable field, Item.declared (.variable pointerType (a.storage field)) made) ∈
            h₆ := by
          rw [← Inventory.mem_of, hall]
          exact List.mem_cons_self
        have hexposed : (Key.variable field, Item.exposed ⟨made, field, a.storage field, valueType⟩) ∈ h₆ := by
          rw [← Inventory.mem_of, hall]
          exact List.mem_cons_of_mem _ List.mem_cons_self
        refine ⟨⟨(hvalue.mono hlonger₂.subset).mono hlonger.subset, ?_⟩, ?_, pointerType, hall⟩
        · exact ⟨.variable field, .variable pointerType (a.storage field), hdeclared, trivial⟩
        · exact ⟨⟨_, hexposed, rfl⟩, pointerType.raw, hpointer.formed.mono hlonger.subset,
            Inventory.mem_declarations hdeclared⟩
    dsimp only
    split
    · exact step_decorate fun h₄ hlonger₄ hof₄ => hexpose h₄ hlonger₄ hof₄
    · exact hexpose h₃ List.prefix_rfl rfl

end Factories

end ShaderLowering
