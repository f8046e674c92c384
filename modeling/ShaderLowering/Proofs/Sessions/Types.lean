import ShaderLowering.Lowering.Request
import ShaderLowering.Proofs.Sessions.Interning
import ShaderLowering.Proofs.Sessions.Nesting

/-!
# Requests for types are answered exactly

In every state that requests lead to, whatever they ask for and whether they succeed, a request for a type
is answered with an id if and only if the type denotes something.  Two such ids are the same if and only if
the denotations are, and the declaration of the id spells the denotation out (`askAll_resolves`).  Whether a
request succeeds follows from the regime that constructions keep to, which id it is answered with from the
upkeep.
-/

namespace ShaderLowering

open Construction
open Spirv

/-! ## What the statement speaks of -/

/-- What a request for a type asks for: no type is the void type. -/
def Denoted (a : Assembly) : Option TypeId → ValueType → Prop
  | none, type => type = .void
  | some id, type => Denotes a id type

/-- A shape that is asked for because of what a representation name says. -/
def Representation.Takes : Representation → Shape → Prop
  | .void, s => s = .void
  | .int width signed, s => s = .int width signed
  | .float width, s => s = .float width
  | .vector _ size, s => ∃ element n, size = some n ∧ s = .vector element n
  | .malformed, _ => False
  | .unknown, _ => False

/-- What a request asks for on its own account: the entity that it is for.  A representation name is for a
shape, and that of a vector for the type of the elements before. -/
inductive Request.AsksFor (a : Assembly) : Request → Key → Prop
  | void : AsksFor a (.type none) (.shape .void)
  | type (id : TypeId) : AsksFor a (.type (some id)) (.type id)
  | shape (s : Shape) : AsksFor a (.shape s) (.shape s)
  | named {name : String} {s : Shape} (owner : TypeId) (hs : (Representation.parse name).Takes s) :
      AsksFor a (.named owner name) (.shape s)
  | element {name element : String} {size : Option Word} {e : TypeDef} (owner : TypeId)
      (hparse : Representation.parse name = .vector element size)
      (he : a.findType? element = some e) : AsksFor a (.named owner name) (.type e.id)
  | constant (valueType : Id) (bits : Word) :
      AsksFor a (.constant valueType bits) (.constant valueType bits)
  | global {field : FieldId} (hsound : Sound a (.variable field)) :
      AsksFor a (.global field) (.variable field)
  | function (key : FunctionKey) : AsksFor a (.function key) (.function key)
  | method {id : MethodId} {m : MethodDef} (hm : a.method? id = some m) :
      AsksFor a (.method id) (.function (FunctionKey.ofMethod m))

/-- The declaration with an id is that of a type, and the ids in it are those of the types that it is
made of. -/
inductive Spelled (a : Assembly) (declared : List Instruction) : ValueType → Id → Prop
  | void {i : Id} (h : ⟨Op.typeVoid.code, [i.raw]⟩ ∈ declared) : Spelled a declared .void i
  | int {i : Id} {width : Word} {signed : Bool}
      (h : ⟨Op.typeInt.code, [i.raw, width, if signed then 1 else 0]⟩ ∈ declared) :
      Spelled a declared (.int width signed) i
  | float {i : Id} {width : Word} (h : ⟨Op.typeFloat.code, [i.raw, width]⟩ ∈ declared) :
      Spelled a declared (.float width) i
  | vector {i j : Id} {element : ValueType} {size : Word} (helement : Spelled a declared element j)
      (h : ⟨Op.typeVector.code, [i.raw, j.raw, size]⟩ ∈ declared) :
      Spelled a declared (.vector element size) i
  | struct {i : Id} {id : TypeId} {t : TypeDef} {members : List Id} (ht : a.type? id = some t)
      (hlength : members.length = (a.instanceFields t).length) (types : FieldDef → ValueType)
      (hdenotes : ∀ pair ∈ (a.instanceFields t).zip members, Denotes a pair.1.type (types pair.1))
      (hmembers : ∀ pair ∈ (a.instanceFields t).zip members,
        Spelled a declared (types pair.1) pair.2)
      (h : ⟨Op.typeStruct.code, i.raw :: members.map Id.raw⟩ ∈ declared) :
      Spelled a declared (.struct id) i

namespace Session

/-- What requests are answered with, one after another. -/
def replies (a : Assembly) (s : Session) : List Request → List (Outcome Key (Except Error Reply))
  | [] => []
  | request :: requests => (s.ask a request).1 :: replies a (s.ask a request).2 requests

/-- One of the requests is for a type and has been answered with an id. -/
def Answered (a : Assembly) (requests : List Request) (type : Option TypeId) (i : Id) : Prop :=
  (Request.type type, Outcome.returned (.ok (.type i))) ∈ requests.zip (start.replies a requests)

end Session

/-- In a state requests are answered for the types that denote something, and for no others. -/
def Session.AnswersTypes (a : Assembly) (s : Session) : Prop :=
  ∀ asked, (∃ i, (s.ask a (.type asked)).1 = .returned (.ok (.type i))) ↔ ∃ type, Denoted a asked type

/-- The ids that requests for types have been answered with are those of what the types denote, and each
of them is the result of one declaration. -/
structure IdentifiesTypes (a : Assembly) (requests : List Request) : Prop where
  same : ∀ asked asked' i i' type type', Session.Answered a requests asked i →
    Session.Answered a requests asked' i' → Denoted a asked type → Denoted a asked' type' →
      (i = i' ↔ type = type')
  spelled : ∀ asked i, Session.Answered a requests asked i → ∃ type, Denoted a asked type ∧
    Spelled a (Session.start.askAll a requests).shared.declared type i
  distinct : ((Session.start.askAll a requests).shared.declared.filterMap
    (Instruction.resultId? .named)).Nodup

/-! ## Whether requests succeed -/

section Success

variable {a : Assembly} {s : Session} {id : TypeId}

/-- What a representation name asks for, whoever asks. -/
theorem representation?_obeys (owner : TypeId) (t : TypeDef) (name : String) :
    Task.Obeys (I := lowering) (Request.AsksFor a (.named owner name)) (fun _ => True) True
      (Construct.representation? a t name) fun _ => True := by
  have hshape : ∀ s : Shape, (Representation.parse name).Takes s →
      Task.Obeys (I := lowering) (Request.AsksFor a (.named owner name)) (fun _ => True) True
        (some <$> Construct.shape s) fun _ => True := fun s hs =>
    .map (.mono (.ask (Request.AsksFor.named owner hs)) fun _ _ => trivial)
  unfold Construct.representation?
  cases hparse : Representation.parse name with
  | unknown => exact .pure trivial
  | malformed => exact .fail trivial
  | void | int _ _ | float _ => exact hshape _ (by rw [hparse]; rfl)
  | vector element size =>
    refine .bind (.ofOption fun _ => trivial) fun e he => .bind (R := fun _ => True) ?_ fun i _ => ?_
    · refine .bind (.ofOption fun _ => trivial) fun _ _ => .mono (.ask ?_) fun _ _ => trivial
      exact Request.AsksFor.element owner hparse he
    · refine .bind (.ofOption fun _ => trivial) fun n hn => hshape _ ?_
      rw [hparse]
      exact ⟨i, n, hn, rfl⟩

/-- A request asks for what it is for. -/
theorem Request.task_asks (request : Request) :
    Task.Obeys (I := lowering) (request.AsksFor a) (fun _ => True) True (request.task a)
      fun _ => True := by
  have hask : ∀ k : Key, request.AsksFor a k → Task.Obeys (I := lowering) (request.AsksFor a)
      (fun _ => True) True (Task.ask (I := lowering) k) fun _ => True := fun k hk =>
    .mono (.ask hk) fun _ _ => trivial
  cases request with
  | type asked =>
    refine .map (.mono (R := fun _ => True) ?_ fun _ _ => trivial)
    cases asked with
    | none => exact hask (.shape .void) .void
    | some id => exact .bind (.ofOption fun _ => trivial) fun _ _ => hask (.type id) (.type id)
  | shape shape => exact .map (.mono (hask (.shape shape) (.shape shape)) fun _ _ => trivial)
  | named owner name =>
    refine .bind (.ofOption fun _ => trivial) fun t _ => ?_
    refine .bind (representation?_obeys owner t name) fun resolved _ => ?_
    cases resolved <;> exact .pure trivial
  | constant valueType bits =>
    exact .map (.mono (hask (.constant valueType bits) (.constant valueType bits)) fun _ _ => trivial)
  | global field =>
    -- Only a static field is a variable; an instance field is refused before anything is asked.
    refine .map (.mono (R := fun _ => True) ?_ fun _ _ => trivial)
    refine .bind (.ofOption fun _ => trivial) fun f hf => ?_
    split
    · next hstatic => exact hask (.variable field) (.global ⟨f, hf, hstatic⟩)
    · exact .fail trivial
  | function key => exact .map (.mono (hask (.function key) (.function key)) fun _ _ => trivial)
  | method id =>
    refine .bind (.ofOption fun _ => trivial) fun m hm => ?_
    exact .map (.mono (hask (.function (FunctionKey.ofMethod m)) (.method hm)) fun _ _ => trivial)
  | freshId => exact .map (.mono (.perform _) fun _ _ => trivial)

theorem Request.AsksFor.known {request : Request} {k : Key} (h : request.AsksFor a k) :
    (regime a).known k := by
  cases h with
  | global hsound => exact hsound
  | _ => trivial

theorem Request.task_obeys (request : Request) :
    Task.Obeys (I := lowering) (regime a).known (fun _ => True) True (request.task a)
      fun _ => True :=
  request.task_asks.weaken (fun _ hasks => hasks.known) id

/-- A request leaves slots that say whether their keys can be constructed. -/
theorem ask_tidy (hnumbered : a.Numbered) (hs : (regime a).Tidy [] s) (request : Request) :
    (regime a).Tidy [] (s.ask a request).2 :=
  (Session.run_ends hnumbered (fun _ hk => hk) request.task_obeys hs fun _ _ _ _ => trivial).tidy

theorem askAll_tidy (hnumbered : a.Numbered) (requests : List Request) :
    (regime a).Tidy [] (Session.start.askAll a requests) := by
  have hall : ∀ s : Session, (regime a).Tidy [] s → (regime a).Tidy [] (s.askAll a requests) := by
    induction requests with
    | nil => exact fun s hs => hs
    | cons request requests ih => exact fun s hs => ih _ (ask_tidy hnumbered hs request)
  exact hall _ (Regime.Tidy.start _)

/-- A request for a front-end type is answered if and only if the type can be constructed. -/
theorem ask_type_iff (hnumbered : a.Numbered) (hs : (regime a).Tidy [] s) :
    (∃ i, (s.ask a (.type (some id))).1 = .returned (.ok (.type i))) ↔ Constructible a (.type id) := by
  -- The one way to fail without asking is that there is no such type.
  have hobeys : Task.Obeys (I := lowering) (· = .type id) (Constructible a) (a.type? id = none)
      (Request.task a (.type (some id))) fun reply =>
        (∃ i, reply = .type i) ∧ Constructible a (.type id) := by
    refine .map (.bind (.ofOption fun hnone => hnone) fun _ _ => ?_)
    exact .mono (.ask rfl) fun i hgood => ⟨⟨i, rfl⟩, hgood⟩
  have hends := Session.run_ends hnumbered (by rintro _ rfl; trivial) hobeys hs
    fun _ _ hgood _ => hgood
  rw [Session.ask]
  rcases hrun : s.run a (Request.task a (.type (some id))) with ⟨(e | reply) | _ | _, s'⟩ <;>
    rw [hrun] at hends
  · refine ⟨nofun, fun hgood => ?_⟩
    rcases hends.2.1 with hnone | ⟨k, rfl, hno⟩
    · obtain ⟨t, ht, -⟩ := hgood.sound
      rw [hnone] at ht
      cases ht
    · exact absurd hgood hno
  · obtain ⟨-, -, ⟨i, rfl⟩, hgood⟩ := hends
    exact ⟨fun _ => hgood, fun _ => ⟨i, rfl⟩⟩
  · exact hends.elim
  · exact hends.elim

/-- A request for the void type is answered. -/
theorem ask_void (hnumbered : a.Numbered) (hs : (regime a).Tidy [] s) :
    ∃ i, (s.ask a (.type none)).1 = .returned (.ok (.type i)) := by
  have hobeys : Task.Obeys (I := lowering) (· = .shape .void) (Constructible a) False
      (Request.task a (.type none)) fun reply => ∃ i, reply = .type i :=
    .map (.mono (.ask rfl) fun i _ => ⟨i, rfl⟩)
  have hends := Session.run_ends hnumbered (by rintro _ rfl; trivial) hobeys hs
    fun _ _ hgood _ => hgood
  rw [Session.ask]
  rcases hrun : s.run a (Request.task a (.type none)) with ⟨(e | reply) | _ | _, s'⟩ <;>
    rw [hrun] at hends
  · obtain ⟨k, rfl, hno⟩ := hends.2.1.resolve_left id
    exact absurd (.shape .void) hno
  · obtain ⟨-, -, i, rfl⟩ := hends
    exact ⟨i, rfl⟩
  · exact hends.elim
  · exact hends.elim

end Success

/-! ## What requests are answered with -/

/-- An id is ready for what a request for a type asks for. -/
def Session.Has (s : Session) : Option TypeId → Id → Prop
  | none, i => s.slots.get? (.shape .void) = some (.ready i)
  | some id, i => s.slots.get? (.type id) = some (.ready i)

section Answers

variable {a : Assembly} {s s' : Session} {asked : Option TypeId} {i : Id} {type : ValueType}

theorem Session.Has.later (h : s.Has asked i) (hwithin : s.Within s') : s'.Has asked i := by
  cases asked with
  | none => exact hwithin (.shape .void) i h
  | some id => exact hwithin (.type id) i h

/-- A request for a type is answered with the id that is ready for it. -/
theorem ask_keeps (hbuilt : a.Built) (hsize : a.types.size ≤ UInt32.size) (hs : (upkeep a).inv s)
    (request : Request) : (upkeep a).inv (s.ask a request).2 ∧
      (upkeep a).Later s (s.ask a request).2 ∧ ∀ asked i, request = .type asked →
        (s.ask a request).1 = .returned (.ok (.type i)) → (s.ask a request).2.Has asked i := by
  have hlawful := upkeep_lawful hbuilt hsize
  have harrives : (request.task a).Arrives (upkeep a) s fun reply s' =>
      ∀ asked i, request = .type asked → reply = .type i → Session.Has s' asked i := by
    cases request with
    | type asked =>
      refine .map (.mono (R := fun i s' => Session.Has s' asked i) ?_ fun v s' hv asked' i heq hi => ?_)
      · cases asked with
        | none => exact .mono (arrives_ask (.shape .void)) fun _ _ h => h.2.2
        | some id => exact .mono (arrives_type id) fun _ _ h => h.2.2
      · obtain rfl := Request.type.inj heq
        obtain rfl := Reply.type.inj hi
        exact hv
    | _ => exact .mono (.trivially _ s) fun _ _ _ => nofun
  obtain ⟨hinv, hlater, hends⟩ := Upkeep.execute_keeps hlawful a.depth hs harrives
  exact ⟨hinv, hlater, fun asked i heq hreply => hends _ hreply asked i heq rfl⟩

/-- What has been answered among requests is ready after them. -/
theorem askAll_keeps (hbuilt : a.Built) (hsize : a.types.size ≤ UInt32.size)
    (requests : List Request) : ∀ s : Session, (upkeep a).inv s →
      (upkeep a).inv (s.askAll a requests) ∧ (upkeep a).Later s (s.askAll a requests) ∧
        ∀ asked i, (Request.type asked, Outcome.returned (.ok (.type i))) ∈
          requests.zip (s.replies a requests) → (s.askAll a requests).Has asked i := by
  induction requests with
  | nil => exact fun s hs => ⟨hs, .refl s, nofun⟩
  | cons request requests ih =>
    intro s hs
    obtain ⟨hs₁, hlater, hanswer⟩ := ask_keeps hbuilt hsize hs request
    obtain ⟨hs₂, hlater', hanswers⟩ := ih _ hs₁
    refine ⟨hs₂, hlater.trans hlater', fun asked i hmem => ?_⟩
    rcases List.mem_cons.mp hmem with heq | hmem
    · obtain ⟨hrequest, hreply⟩ := Prod.mk.inj heq
      exact (hanswer asked i hrequest.symm hreply.symm).later hlater'.ready
    · exact hanswers asked i hmem

/-- What is ready for a request stands for what it asks for. -/
theorem Interned.means_of_has (hs : Interned a s) (h : s.Has asked i) :
    ∃ type, Denoted a asked type ∧ Means a s type i := by
  cases asked with
  | none => exact ⟨.void, rfl, h⟩
  | some id => exact hs.types id i h

theorem Denoted.unique {type' : ValueType} (h : Denoted a asked type) (h' : Denoted a asked type') :
    type = type' := by
  cases asked with
  | none => exact Eq.trans h (Eq.symm h')
  | some id => exact Denotes.unique h h'

/-- The declarations of a session spell out what its ids stand for. -/
theorem Interned.spelled (hs : Interned a s) {id : TypeId} (h : Denotes a id type)
    (hmeans : Means a s type i) : Spelled a s.shared.declared type i := by
  induction h generalizing i with
  | @simple id t name r type ht hplain hname hwritten hsimple =>
    cases r with
    | void =>
      obtain rfl := Option.some.inj hsimple
      exact .void (hs.shapes .void i hmeans)
    | int width signed =>
      obtain rfl := Option.some.inj hsimple
      exact .int (hs.shapes (.int width signed) i hmeans)
    | float width =>
      obtain rfl := Option.some.inj hsimple
      exact .float (hs.shapes (.float width) i hmeans)
    | _ => cases hsimple
  | vector ht hplain hname hwritten hnewest helement ih =>
    obtain ⟨j, hj, hmade⟩ := hmeans
    exact .vector (ih hj) (hs.shapes _ i hmade)
  | @struct id t ht hplain hstruct types hfields ih =>
    obtain ⟨members, hmembers, hdeclared⟩ := hs.structs id i t hmeans.1 ht hstruct
    obtain ⟨hlength, hready⟩ := List.forall₂_iff_zip.mp hmembers
    refine .struct ht hlength.symm types (fun pair hpair => ?_) (fun pair hpair => ?_) hdeclared
    · exact hfields pair.1 (List.of_mem_zip hpair).1
    · have hfield := (List.of_mem_zip hpair).1
      obtain ⟨type', hdenotes, hmeans'⟩ := hs.types pair.1.type pair.2 (hready hpair)
      -- The member was recorded with some type of its own; a type id denotes only one.
      obtain rfl := hdenotes.unique (hfields pair.1 hfield)
      exact ih pair.1 hfield hmeans'

theorem Interned.spelled_of_denoted (hs : Interned a s) (h : Denoted a asked type)
    (hmeans : Means a s type i) : Spelled a s.shared.declared type i := by
  cases asked with
  | none =>
    obtain rfl : type = .void := h
    exact .void (hs.shapes .void i hmeans)
  | some id => exact hs.spelled h hmeans

end Answers

/-- In the state before any request nothing is ready. -/
theorem interned_start (a : Assembly) : Interned a Session.start where
  issued o i h := by cases o <;> simp [Made, Session.start, State.start] at h
  distinct o _ i h := by cases o <;> simp [Made, Session.start, State.start] at h
  shapes _ _ h := by simp [Session.start, State.start] at h
  types _ _ h := by simp [Session.start, State.start] at h
  structs _ _ _ h := by simp [Session.start, State.start] at h
  declarations := ⟨List.nodup_nil, nofun⟩

/-- Requests for types are answered exactly in every state of a session, and what they are answered
with identifies what the types denote as long as the ids of the session fit a word. -/
theorem askAll_resolves {a : Assembly} (hbuilt : a.Built) (hsize : a.types.size ≤ UInt32.size)
    (requests : List Request) : (Session.start.askAll a requests).AnswersTypes a ∧
      ((Session.start.askAll a requests).shared.ids.issued < UInt32.size →
        IdentifiesTypes a requests) := by
  have htidy := askAll_tidy hbuilt.numbered requests
  constructor
  · intro asked
    cases asked with
    | none => exact ⟨fun _ => ⟨.void, rfl⟩, fun _ => ask_void hbuilt.numbered htidy⟩
    | some id =>
      exact (ask_type_iff hbuilt.numbered htidy).trans (constructible_iff_denotes hbuilt hsize)
  · intro hids
    obtain ⟨hinv, -, hanswers⟩ := askAll_keeps hbuilt hsize requests _ fun _ => interned_start a
    have hs : Interned a (Session.start.askAll a requests) := hinv hids
    constructor
    case same =>
      intro asked asked' i i' type type' hanswered hanswered' hdenoted hdenoted'
      obtain ⟨type₁, hdenoted₁, hmeans⟩ := hs.means_of_has (hanswers asked i hanswered)
      obtain ⟨type₂, hdenoted₂, hmeans'⟩ := hs.means_of_has (hanswers asked' i' hanswered')
      obtain rfl := hdenoted.unique hdenoted₁
      obtain rfl := hdenoted'.unique hdenoted₂
      exact hs.means_iff hmeans hmeans'
    case spelled =>
      intro asked i hanswered
      obtain ⟨type, hdenoted, hmeans⟩ := hs.means_of_has (hanswers asked i hanswered)
      exact ⟨type, hdenoted, hs.spelled_of_denoted hdenoted hmeans⟩
    case distinct => exact hs.declarations.nodup

section Palette

/-- Two vector types of one shape, a struct of both, a type parameter, and a struct of itself. -/
def palette : Assembly where
  name := "palette"
  types := #[⟨⟨0⟩, "F", .plain, [.representation (some "OpTypeFloat\x6032")], []⟩,
    ⟨⟨1⟩, "Color", .plain, [.representation (some "OpTypeVector\x60F\x604")], []⟩,
    ⟨⟨2⟩, "Point", .plain, [.representation (some "OpTypeVector\x60F\x604")], []⟩,
    ⟨⟨3⟩, "Dot", .plain, [], [⟨0⟩, ⟨1⟩]⟩, ⟨⟨4⟩, "T", .genericParameter, [], []⟩,
    ⟨⟨5⟩, "Ring", .plain, [], [⟨2⟩]⟩]
  fields := #[⟨⟨0⟩, ⟨3⟩, "color", ⟨1⟩, []⟩, ⟨⟨1⟩, ⟨3⟩, "place", ⟨2⟩, []⟩, ⟨⟨2⟩, ⟨5⟩, "next", ⟨5⟩, []⟩]
  methods := #[]
  typeNames := [("Ring", ⟨5⟩), ("T", ⟨4⟩), ("Dot", ⟨3⟩), ("Point", ⟨2⟩), ("Color", ⟨1⟩), ("F", ⟨0⟩)]

theorem palette_built : palette.Built := by
  have hplatform := ((Assembly.Built.addType (.empty "palette") "F" .plain
    [.representation (some "OpTypeFloat\x6032")]).addType "Color" .plain
      [.representation (some "OpTypeVector\x60F\x604")]).addType "Point" .plain
        [.representation (some "OpTypeVector\x60F\x604")]
  have htypes := ((hplatform.addType "Dot" .plain []).addType "T" .genericParameter []).addType
    "Ring" .plain []
  have hcolor := htypes.defineField ⟨3⟩ ⟨1⟩ "color" [] rfl
  have hplace := hcolor.defineField ⟨3⟩ ⟨2⟩ "place" [] rfl
  exact hplace.defineField ⟨5⟩ ⟨5⟩ "next" [] rfl

/-- Types of every kind, asked for after and before what fails. -/
def paletteRequests : List Request :=
  [.type (some ⟨3⟩), .type (some ⟨5⟩), .type (some ⟨4⟩), .type (some ⟨2⟩), .type (some ⟨1⟩),
    .type none]

/-- Among requests that fail the two vector types are answered with one id. -/
theorem palette_resolves : palette.Built ∧ palette.types.size ≤ UInt32.size ∧
    (Session.start.askAll palette paletteRequests).AnswersTypes palette ∧
    (Session.start.askAll palette paletteRequests).shared.ids.issued < UInt32.size ∧
    IdentifiesTypes palette paletteRequests ∧
    Session.Answered palette paletteRequests (some ⟨1⟩) ⟨2⟩ ∧
    Session.Answered palette paletteRequests (some ⟨2⟩) ⟨2⟩ := by
  have hsize : palette.types.size ≤ UInt32.size := by decide
  have hids : (Session.start.askAll palette paletteRequests).shared.ids.issued < UInt32.size := by
    decide +kernel
  obtain ⟨hanswers, hidentifies⟩ := askAll_resolves palette_built hsize paletteRequests
  exact ⟨palette_built, hsize, hanswers, hids, hidentifies hids, List.mem_of_getElem? (i := 4) rfl,
    List.mem_of_getElem? (i := 3) rfl⟩

end Palette

end ShaderLowering
