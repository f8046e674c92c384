import ShaderLowering.Lowering.Workers
import ShaderLowering.Proofs.Lowering.Bindings
import ShaderLowering.Proofs.Sessions.Writing
import ShaderLowering.Proofs.Threads.Conduct
import ShaderLowering.Proofs.Writings.Silent

/-!
# Instances of generic methods

The slots of a function are declared before anything is called.  To declare a slot asks for its type, and
there is no type for a placeholder, so a function whose slots are not all of concrete types is given up
before it calls anything (`prepares_declareSlots`).  Whatever is called is therefore called with concrete
types, through any chain of generic methods that call one another, and on any number of threads
(`Monomorphic`).
-/

namespace ShaderLowering

open Construction
open Spirv (Id)

variable {a : Assembly} {α β : Type}

/-- What is shown of a key that is ready: types are concrete, and so are the types of the slots of
functions. -/
def Key.Genuine (a : Assembly) : Key → Prop
  | .type id => a.Concrete id
  | .function key => ∃ p, a.specialized? key = some p ∧ ∀ id ∈ p.slotTypes, a.Concrete id
  | _ => True

/-- A function asks for another one only to call it, and only if its own slots are of concrete types. -/
def Errand (a : Assembly) : Key → Key → Prop
  | .function caller, .function callee => ∃ p wire slots, a.specialized? caller = some p ∧
      (∀ id ∈ p.slotTypes, a.Concrete id) ∧ p.calleeKey? a wire slots = some callee
  | _, _ => True

theorem errand_of_stage {key : FunctionKey} {k : Key} (hk : k.stage < 3) : Errand a (.function key) k := by
  cases k with
  | function callee => simp [Key.stage] at hk
  | _ => trivial

/-! ## Before anything is called -/

/-- A construction asks for no function, and comes to its end only if `R` holds. -/
abbrev Construct.Prepares (a : Assembly) (t : Construct α) (R : Prop) : Prop :=
  Task.Obeys (I := lowering) (fun k => k.stage < 3) (Key.Genuine a) True t fun _ => R

theorem prepares_type (id : TypeId) : Construct.Prepares a (Construct.type a id) (a.Concrete id) := by
  have hstage : (Key.type id).stage < 3 := by simp [Key.stage]
  exact .bind (.ofOption fun _ => trivial) fun _ _ => .ask hstage

theorem prepares_shape (s : Shape) : Construct.Prepares a (Construct.shape s) True := by
  have hstage : (Key.shape s).stage < 3 := by simp [Key.stage]
  exact .mono (.ask hstage) fun _ _ => trivial

theorem prepares_returnType (id : Option TypeId) :
    Construct.Prepares a (Construct.returnType a id) True := by
  cases id with
  | none => exact prepares_shape _
  | some id => exact .mono (prepares_type id) fun _ _ => trivial

/-- A step that writes a function asks for no other one, and is done only if `R` holds. -/
def BodyWriter.Prepares (a : Assembly) (x : BodyWriter α) (R : Prop) : Prop :=
  ∀ d : Draft, Construct.Prepares a (x.run d) R

namespace BodyWriter.Prepares

variable {x : BodyWriter α} {f : α → BodyWriter β} {R S : Prop}

theorem bind (hx : x.Prepares a R) (hf : ∀ v, R → (f v).Prepares a S) : (x >>= f).Prepares a S := by
  intro d
  rw [StateT.run_bind]
  exact .bind (hx d) fun r hr => hf r.1 hr r.2

theorem pure {v : α} (hR : R) : Prepares a (Pure.pure v : BodyWriter α) R :=
  fun _ => Task.Obeys.pure hR

theorem lift {t : Construct α} (ht : t.Prepares a R) : Prepares a (liftM t : BodyWriter α) R :=
  fun _ => .bind ht fun _ hR => .pure hR

theorem freshId : BodyWriter.freshId.Prepares a True :=
  lift (.perform _)

theorem write (op : Spirv.Op) (operands : List Spirv.Word) : (BodyWriter.write op operands).Prepares a True :=
  fun _ => Task.Obeys.pure trivial

theorem mapM {xs : List α} {f : α → BodyWriter β} (hf : ∀ x ∈ xs, (f x).Prepares a True) :
    (xs.mapM f).Prepares a True := by
  induction xs with
  | nil => exact pure trivial
  | cons x xs ih =>
    rw [List.mapM_cons]
    refine bind (hf x List.mem_cons_self) fun v _ => ?_
    exact bind (ih fun x' hx' => hf x' (List.mem_cons_of_mem x hx')) fun _ _ => pure trivial

theorem forM {xs : List α} {f : α → BodyWriter PUnit} {C : α → Prop}
    (hf : ∀ x ∈ xs, (f x).Prepares a (C x)) : (xs.forM f).Prepares a (∀ x ∈ xs, C x) := by
  induction xs with
  | nil => exact pure nofun
  | cons x xs ih =>
    refine bind (hf x List.mem_cons_self) fun _ hx d => ?_
    exact .mono (ih (fun x' hx' => hf x' (List.mem_cons_of_mem x hx')) d) fun _ hxs =>
      List.forall_mem_cons.mpr ⟨hx, hxs⟩

end BodyWriter.Prepares

open BodyWriter (Prepares)

theorem prepares_declareSlot (id : TypeId) : (BodyWriter.declareSlot a id).Prepares a (a.Concrete id) := by
  refine .bind (.lift (prepares_type id)) fun valueType hid => ?_
  refine .bind (.lift (prepares_shape _)) fun pointerType _ => .bind .freshId fun pointer _ => ?_
  exact .bind (.write _ _) fun _ _ _ => Task.Obeys.pure hid

/-- Slots are declared only if they are of concrete types, and nothing is called before. -/
theorem prepares_declareSlots (m : MethodDef) (s : Specialization) :
    Prepares a (BodyWriter.declareSlots a m s) (∀ id ∈ m.backedTypes, a.Concrete (s.apply id)) := by
  rw [BodyWriter.declareSlots_eq]
  exact .forM fun id _ => prepares_declareSlot (s.apply id)

theorem prepares_signature (id returnType functionType : Id) (parameterTypes : List Id) :
    (BodyWriter.signature id returnType functionType parameterTypes).Prepares a True := by
  refine .bind (.write _ _) fun _ _ => .mapM fun parameterType _ => ?_
  exact .bind .freshId fun value _ => .bind (.write _ _) fun _ _ => .pure trivial

variable {p : Specialized}

/-- A function with a slot that is not of a concrete type is given up before it calls anything. -/
theorem prepares_buildSpecialized (hno : ¬∀ id ∈ p.slotTypes, a.Concrete id) :
    (Construct.buildSpecialized a p.method p.key p.specialization).Prepares a False := by
  have hslots : ¬∀ id ∈ p.method.backedTypes, a.Concrete (p.specialization.apply id) := by
    rwa [Specialized.slotTypes, List.forall_mem_map] at hno
  refine .bind (prepares_returnType _) fun returnType _ => ?_
  refine .bind (.mapM fun id _ => prepares_type id) fun parameterTypes _ => ?_
  refine .bind (prepares_shape _) fun functionType _ => .bind (.perform _) fun id _ => ?_
  have hbody : (BodyWriter.body a p.method p.specialization id returnType functionType
      parameterTypes).Prepares a False := by
    refine .bind (prepares_signature _ _ _ _) fun parameters _ => .bind .freshId fun label _ => ?_
    exact .bind (.write _ _) fun _ _ => .bind (prepares_declareSlots _ _) fun _ hconcrete =>
      absurd hconcrete hslots
  exact .bind (hbody Draft.empty) fun _ hno => hno.elim

/-! ## Constructions -/

/-- A function whose slots are of concrete types asks for functions only to call them. -/
theorem errand_of_asks (hp : a.specialized? p.key = some p) (hslots : ∀ id ∈ p.slotTypes, a.Concrete id)
    {k : Key} (hasks : Asks a (.function p.key) k) : Errand a (.function p.key) k := by
  cases k with
  | function callee =>
    cases hasks.needs (Nat.succ_pos 2) with
    | callee hp' hop hcallee =>
      obtain rfl := Option.some.inj (hp.symm.trans hp')
      exact ⟨p, _, _, hp, hslots, hcallee⟩
  | _ => trivial

theorem buildFunction_obeys (hnumbered : a.Numbered) (key : FunctionKey) :
    Task.Obeys (I := lowering) (Errand a (.function key)) (Key.Genuine a) True
      (Construct.buildFunction a key) fun _ => (Key.function key).Genuine a := by
  refine .bind (.ofOption fun _ => trivial) fun m hm => ?_
  split
  · exact .fail trivial
  · next s hbind =>
    let p : Specialized := ⟨key, m, s⟩
    have hp : a.specialized? p.key = some p := Assembly.specialized?_eq_some.mpr ⟨rfl, hm, hbind⟩
    by_cases hslots : ∀ id ∈ p.slotTypes, a.Concrete id
    · exact ((keeps_buildSpecialized hp hnumbered).weaken (fun _ => errand_of_asks hp hslots)
        fun _ => trivial).mono fun _ _ => ⟨p, hp, hslots⟩
    · exact ((prepares_buildSpecialized hslots).weaken (fun _ => errand_of_stage) id).mono fun _ hno =>
        hno.elim

theorem factory_obeys (hnumbered : a.Numbered) (k : Key) :
    Task.Obeys (I := lowering) (Errand a k) (Key.Genuine a) True ((recipes a).factory k) fun _ =>
      k.Genuine a := by
  cases k with
  | type id =>
    refine (keeps_buildType.weaken (fun _ _ => trivial) fun _ => trivial).mono fun _ hsupplied => ?_
    obtain ⟨t, ht, hplain, -⟩ := hsupplied.1
    exact ⟨t, ht, hplain⟩
  | «variable» field =>
    refine .bind (.ofOption fun _ => trivial) fun f _ => ?_
    refine .bind ((prepares_type f.type).weaken (fun _ _ => trivial) id) fun i _ => ?_
    refine .bind ((prepares_shape _).weaken (fun _ _ => trivial) id) fun j _ => ?_
    refine .bind (.perform _) fun v _ => ?_
    dsimp only
    split
    · exact .bind (.perform _) fun _ _ => .bind (.perform _) fun _ _ => .pure trivial
    · exact .bind (.perform _) fun _ _ => .pure trivial
  | function key => exact buildFunction_obeys hnumbered key
  | shape s => exact .mono (.perform _) fun _ _ => trivial
  | constant type bits => exact .mono (.perform _) fun _ _ => trivial

/-! ## Runs -/

/-- What holds of functions at every moment of a run, whatever chain of calls has led to them. -/
structure Monomorphic (a : Assembly) (m : Machine lowering Emission Unit) : Prop where
  /-- A function that is about to call another one has slots of concrete types, and infers the key from
  them. -/
  inferred : ∀ t caller callee, m.errand? t = some (.function caller, .function callee) →
    ∃ p wire slots, a.specialized? caller = some p ∧ (∀ id ∈ p.slotTypes, a.Concrete id) ∧
      p.calleeKey? a wire slots = some callee
  /-- The types of that key are concrete, and its own substitution makes them of the declared ones. -/
  called : ∀ t caller callee, m.errand? t = some (.function caller, .function callee) →
    callee.Instantiates a
  /-- A function that is ready has slots of concrete types. -/
  made : ∀ key f, m.world.ready? (.function key) = some f →
    ∃ p, a.specialized? key = some p ∧ ∀ id ∈ p.slotTypes, a.Concrete id

theorem monomorphic_follow (hnumbered : a.Numbered) {tasks : List (Construct Unit)}
    (htasks : ∀ task ∈ tasks, Construct.Silent a task) (schedule : List ThreadId) :
    Monomorphic a ((Machine.start tasks Emission.empty).follow (recipes a) schedule) := by
  obtain ⟨h, hm⟩ := governed_conduct (factory_obeys hnumbered) htasks Emission.empty schedule
  refine ⟨fun t caller callee herrand => asks_of_errand hm herrand, fun t caller callee herrand => ?_,
    fun key f hready => had_of_ready hm hready⟩
  obtain ⟨p, wire, slots, -, hslots, hcallee⟩ := asks_of_errand hm herrand
  exact FunctionKey.instantiates_of_calleeKey? hnumbered hslots hcallee

/-- A key has a substitution if the types that its method declares are there and it is consistent, and only
then; the substitution takes declared placeholders to the types of the key and leaves other types alone.
Among threads that share a run, under any schedule, whatever is called is called with concrete types that
are what its substitution makes of the declared ones, and whatever is made has slots of concrete types. -/
theorem specializations_substitute (a : Assembly) :
    (∀ (m : MethodDef) (key : FunctionKey), key.parameters.length = m.effectiveParameters.length →
      ((∃ s, Specialization.bind a m key = .ok s) ↔
        (∀ id ∈ m.effectiveParameters, (a.type? id).isSome) ∧ key.Consistent a m) ∧
      ∀ s, Specialization.bind a m key = .ok s → s.Substitutes a m key) ∧
    (a.Built → ∀ schedule,
      (∀ requests, Monomorphic a ((Clients.start a requests).follow a schedule)) ∧
      ∀ dealt, Monomorphic a ((WorkerPool.start a dealt).follow a schedule)) := by
  refine ⟨fun m key hlength => ⟨Specialization.exists_bind_iff hlength, fun s hs =>
    Specialization.substitutes_of_bind hs⟩, fun hbuilt schedule => ⟨fun requests => ?_, fun dealt => ?_⟩⟩
  · refine monomorphic_follow hbuilt.numbered (fun task htask => ?_) schedule
    obtain ⟨asked, -, rfl⟩ := List.mem_map.mp htask
    exact silent_inTurn a asked
  · refine monomorphic_follow hbuilt.numbered (fun task htask => ?_) schedule
    obtain ⟨entries, -, rfl⟩ := List.mem_map.mp htask
    exact silent_entryPoints a entries

section Relay

open Il (Operation)

/-- A method whose two parameters have the same type. -/
def pairing : MethodDef where
  id := ⟨0⟩
  owner := ⟨0⟩
  name := "same"
  fullName := "F::same"
  returnType := none
  parameters := [⟨1⟩, ⟨1⟩]
  locals := []
  attributes := [.static]
  code := .empty

/-- Beside that method, one with a receiver and two parameters of types of their own, and one without
parameters. -/
def relayWith (passes mains : List Operation) (locals : List TypeId) : Assembly where
  name := "relay"
  types := #[⟨⟨0⟩, "F", .plain, [], []⟩, ⟨⟨1⟩, "T", .genericParameter, [], []⟩,
    ⟨⟨2⟩, "U", .genericParameter, [], []⟩, ⟨⟨3⟩, "A", .plain, [], []⟩]
  fields := #[]
  methods := #[
    pairing,
    { id := ⟨1⟩, owner := ⟨0⟩, name := "pass", fullName := "F::pass", returnType := none,
      parameters := [⟨2⟩, ⟨1⟩], locals := [], attributes := [],
      code := passes.foldl (fun code op => code.push op.encode) .empty },
    { id := ⟨2⟩, owner := ⟨0⟩, name := "main", fullName := "F::main", returnType := none,
      parameters := [], locals := locals, attributes := [.static],
      code := mains.foldl (fun code op => code.push op.encode) .empty }]
  typeNames := [("A", ⟨3⟩), ("U", ⟨2⟩), ("T", ⟨1⟩), ("F", ⟨0⟩)]

/-- The method without parameters calls the second one, which passes its first parameter on twice. -/
def relay : Assembly :=
  relayWith [.call none 0 [1, 1]] [.call none 1 [0, 1, 0]] [⟨0⟩, ⟨3⟩]

theorem relay_built : relay.Built := by
  have htypes := ((((Assembly.Built.empty "relay").addType "F" .plain []).addType "T"
    .genericParameter []).addType "U" .genericParameter []).addType "A" .plain []
  have hsame := htypes.defineMethod ⟨0⟩ "same" none [⟨1⟩, ⟨1⟩] [.static] rfl
  have hpass := hsame.defineMethod ⟨0⟩ "pass" none [⟨2⟩, ⟨1⟩] [] rfl
  have hmain : (relayWith [] [] []).Built := hpass.defineMethod ⟨0⟩ "main" none [] [.static] rfl
  have hlocal : (relayWith [] [] [⟨0⟩]).Built := hmain.addLocal ⟨2⟩ ⟨0⟩ rfl
  have hlocals : (relayWith [] [] [⟨0⟩, ⟨3⟩]).Built := hlocal.addLocal ⟨2⟩ ⟨3⟩ rfl
  have hpasses : (relayWith [.call none 0 [1, 1]] [] [⟨0⟩, ⟨3⟩]).Built :=
    hlocals.push ⟨1⟩ (Operation.call none 0 [1, 1]).encode rfl
  exact hpasses.push ⟨2⟩ (Operation.call none 1 [0, 1, 0]).encode rfl

/-- A client that asks for the method without parameters. -/
def relayRun (steps : Nat) : Clients :=
  (Clients.start relay [[.method ⟨2⟩]]).follow relay (List.replicate steps 0)

/-- There is a substitution for two equal types but not for two different ones; and what is passed on twice,
in a call that another call led to, is of a concrete type. -/
theorem relay_substitutes :
    relay.Built ∧
      (¬∃ s, Specialization.bind relay pairing ⟨⟨0⟩, [⟨0⟩, ⟨3⟩]⟩ = .ok s) ∧
      (∃ s, Specialization.bind relay pairing ⟨⟨0⟩, [⟨3⟩, ⟨3⟩]⟩ = .ok s ∧
        s.Substitutes relay pairing ⟨⟨0⟩, [⟨3⟩, ⟨3⟩]⟩) ∧
      (relayRun 62).errand? 0 =
        some (.function ⟨⟨1⟩, [⟨0⟩, ⟨3⟩, ⟨0⟩]⟩, .function ⟨⟨0⟩, [⟨3⟩, ⟨3⟩]⟩) ∧
      FunctionKey.Instantiates relay ⟨⟨0⟩, [⟨3⟩, ⟨3⟩]⟩ ∧
      ((relayRun 100).world.ready? (.function ⟨⟨1⟩, [⟨0⟩, ⟨3⟩, ⟨0⟩]⟩)).isSome ∧
      ∃ p, relay.specialized? ⟨⟨1⟩, [⟨0⟩, ⟨3⟩, ⟨0⟩]⟩ = some p ∧ ∀ id ∈ p.slotTypes, relay.Concrete id := by
  obtain ⟨hbind, hruns⟩ := specializations_substitute relay
  have hplaceholder : relay.Placeholder ⟨1⟩ := ⟨_, rfl, rfl⟩
  have hconflict := (hbind pairing ⟨⟨0⟩, [⟨0⟩, ⟨3⟩]⟩ rfl).1
  have hagreed : ∃ s, Specialization.bind relay pairing ⟨⟨0⟩, [⟨3⟩, ⟨3⟩]⟩ = .ok s := ⟨_, rfl⟩
  have herrand : (relayRun 62).errand? 0 =
      some (.function ⟨⟨1⟩, [⟨0⟩, ⟨3⟩, ⟨0⟩]⟩, .function ⟨⟨0⟩, [⟨3⟩, ⟨3⟩]⟩) := by decide +kernel
  have hready : ((relayRun 100).world.ready? (.function ⟨⟨1⟩, [⟨0⟩, ⟨3⟩, ⟨0⟩]⟩)).isSome := by decide +kernel
  refine ⟨relay_built, fun hbound => ?_, ?_, herrand, ?_, hready, ?_⟩
  -- The declared types agree at both positions, and the key's types do not.
  · have hsame := (hconflict.mp hbound).2 0 1 ⟨1⟩ ⟨0⟩ ⟨3⟩ hplaceholder rfl rfl rfl rfl
    exact absurd hsame (by decide)
  · obtain ⟨s, hs⟩ := hagreed
    exact ⟨s, hs, (hbind pairing _ rfl).2 s hs⟩
  · exact ((hruns relay_built _).1 _).called 0 _ _ herrand
  · obtain ⟨f, hf⟩ := Option.isSome_iff_exists.mp hready
    exact ((hruns relay_built _).1 _).made _ f hf

end Relay

end ShaderLowering
