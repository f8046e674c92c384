import ShaderLowering.Proofs.Layout.Codec
import ShaderLowering.Proofs.Modules.Delimiters
import ShaderLowering.Proofs.Modules.EntryPoints
import ShaderLowering.Proofs.Modules.Exhaustion
import ShaderLowering.Proofs.Modules.Typing
import ShaderLowering.Proofs.Sessions.Nesting

/-!
# Recursion is rejected

Functions and front-end types are the nodes of a graph: an `Edge` leads from a function to what it calls
and to the types that it is made of, and from a struct or a vector to the types of its members or to that
of its element.  If nothing else is wrong with the nodes that the entry points reach, then a module is made
if and only if none of them is on a cycle, and otherwise the run fails with the construction of one that
is (`compile_rejects_recursion`).  The functions of a module that is made never call each other in a
circle, whatever run has made it, as long as its instructions fit the format: the name of an entry point that
is declared in more words than the format can tell is read as instructions (`masked_calls_itself`).

In terms of constructions an edge is a need, or two: a function needs the type of a field that it accesses
by way of the global variable of the field.  No cycle is lost or gained that way, as nothing that a global
variable needs ever needs a global variable.
-/

namespace ShaderLowering

open Construction
open Relation (ReflTransGen TransGen)
open Spirv

/-! ## The graph -/

/-- A function at some types, or a front-end type. -/
inductive Node where
  | function (key : FunctionKey)
  | type (id : TypeId)
  deriving DecidableEq, Repr

namespace Node

/-- The key under which a node is constructed. -/
def key : Node → Key
  | .function key => .function key
  | .type id => .type id

theorem key_injective {n n' : Node} (h : n.key = n'.key) : n = n' := by
  cases n <;> cases n' <;> cases h <;> rfl

end Node

/-- What a function calls at which types, the types of what it returns, of its parameters, of its slots
and of the fields that it accesses; the types of the members of a struct, and that of the element of a
vector. -/
inductive Edge (a : Assembly) : Node → Node → Prop
  | callee {key callee : FunctionKey} {p : Specialized} {result : Option Il.Slot} {wire : UInt64}
      {slots : List Il.Slot} (hp : a.specialized? key = some p)
      (hop : p.Performs (.call result wire slots)) (hcallee : p.calleeKey? a wire slots = some callee) :
      Edge a (.function key) (.function callee)
  | type {key : FunctionKey} {p : Specialized} {id : TypeId} (hp : a.specialized? key = some p)
      (hid : id ∈ p.types) : Edge a (.function key) (.type id)
  | field {key : FunctionKey} {p : Specialized} {op : Il.Operation} {wire : UInt64} {field : FieldId}
      {f : FieldDef} (hp : a.specialized? key = some p) (hop : p.Performs op)
      (hwire : op.field? = some wire) (hfield : EntityId.ofWire? wire = some field)
      (hf : a.field? field = some f) : Edge a (.function key) (.type f.type)
  | member {id : TypeId} {t : TypeDef} {f : FieldDef} (ht : a.type? id = some t)
      (hstruct : t.representation? = none) (hf : f ∈ a.instanceFields t) :
      Edge a (.type id) (.type f.type)
  | element {id : TypeId} {t e : TypeDef} {name element : String} {size : Option Word}
      (ht : a.type? id = some t) (hname : t.representation? = some (some name))
      (hvector : Representation.parse name = .vector element size)
      (helement : a.findType? element = some e) : Edge a (.type id) (.type e.id)

namespace Node

/-- Nothing is wrong with a node, nor with the fields that it accesses. -/
structure Passes (a : Assembly) (n : Node) : Prop where
  sound : Sound a n.key
  fields : ∀ field, Needs a n.key (.variable field) → Sound a (.variable field)

/-- A node is reached from the functions of the entry points. -/
def Reached (a : Assembly) (requested : List EntryPoint) (n : Node) : Prop :=
  ∃ key ∈ a.entryKeys requested, ReflTransGen (Edge a) (.function key) n

/-- A node is on a cycle. -/
def Cyclic (a : Assembly) (n : Node) : Prop :=
  TransGen (Edge a) n n

end Node

/-- A function calls another one in a module; both are given by their ids. -/
def Spirv.Module.Calls (m : Module) (caller callee : Word) : Prop :=
  ∃ block ∈ m.blocks, blockId? block = some caller ∧
    ∃ call ∈ withOp .functionCall block, call.operands[2]? = some callee

/-! ## Edges and needs -/

section Edges

variable {a : Assembly} {n n' : Node} {k k' : Key}

theorem Edge.needs (h : Edge a n n') : TransGen (Needs a) n.key n'.key := by
  cases h with
  | callee hp hop hcallee => exact .single (.callee hp hop hcallee)
  | type hp hid => exact .single (.type hp hid)
  | field hp hop hwire hfield hf => exact .tail (.single (.global hp hop hwire hfield)) (.fieldType hf)
  | member ht hstruct hf => exact .single (.member ht hstruct hf)
  | element ht hname hvector helement => exact .single (.element ht hname hvector helement)

theorem needs_of_edges (h : TransGen (Edge a) n n') : TransGen (Needs a) n.key n'.key := by
  induction h with
  | single hedge => exact hedge.needs
  | tail _ hedge ih => exact ih.trans hedge.needs

theorem reflTransGen_needs_of_edges (h : ReflTransGen (Edge a) n n') :
    ReflTransGen (Needs a) n.key n'.key := by
  rcases Relation.reflTransGen_iff_eq_or_transGen.mp h with rfl | hpath
  · exact .refl
  · exact (needs_of_edges hpath).to_reflTransGen

theorem edge_of_needs (h : Needs a n.key n'.key) : Edge a n n' := by
  cases n with
  | function key =>
    cases n' with
    | function callee =>
      cases h with
      | callee hp hop hcallee => exact .callee hp hop hcallee
    | type id =>
      cases h with
      | type hp hid => exact .type hp hid
  | type id =>
    cases n' with
    | function key => cases h
    | type id' =>
      cases h with
      | member ht hstruct hf => exact .member ht hstruct hf
      | element ht hname hvector helement => exact .element ht hname hvector helement

/-- What a node needs by way of a global variable. -/
theorem edge_of_global {field : FieldId} (h : Needs a n.key (.variable field))
    (h' : Needs a (.variable field) n'.key) : Edge a n n' := by
  cases n with
  | function key =>
    cases h with
    | global hp hop hwire hfield =>
      cases n' with
      | function key' => cases h'
      | type id =>
        cases h' with
        | fieldType hf => exact .field hp hop hwire hfield hf
  | type id => cases h

/-- A path of nodes leads to a key: to the node of the key, or to a function that accesses the global
variable of the key. -/
inductive Leads (a : Assembly) (n : Node) : Key → Prop
  | node {n' : Node} (hpath : ReflTransGen (Edge a) n n') : Leads a n n'.key
  | global {n' : Node} {field : FieldId} (hpath : ReflTransGen (Edge a) n n')
      (hneeds : Needs a n'.key (.variable field)) : Leads a n (.variable field)

theorem Leads.edges (h : Leads a n k) (hneeds : Needs a k n'.key) : TransGen (Edge a) n n' := by
  cases h with
  | node hpath => exact .tail' hpath (edge_of_needs hneeds)
  | global hpath hglobal => exact .tail' hpath (edge_of_global hglobal hneeds)

theorem Leads.tail (h : Leads a n k) (hneeds : Needs a k k') : Leads a n k' := by
  cases k' with
  | function key =>
    have hedges : TransGen (Edge a) n (.function key) := h.edges hneeds
    exact .node hedges.to_reflTransGen
  | type id =>
    have hedges : TransGen (Edge a) n (.type id) := h.edges hneeds
    exact .node hedges.to_reflTransGen
  | «variable» field =>
    cases h with
    | node hpath => exact .global hpath hneeds
    | global hpath _ => cases hneeds
  | shape s => cases hneeds
  | constant type bits => cases hneeds

/-- What a node needs, directly or not, is led to by edges. -/
theorem leads_of_needs (h : ReflTransGen (Needs a) n.key k) : Leads a n k := by
  induction h with
  | refl => exact .node .refl
  | tail _ hneeds ih => exact ih.tail hneeds

theorem edges_of_needs (h : TransGen (Needs a) n.key n'.key) : TransGen (Edge a) n n' := by
  obtain ⟨k, hpath, hneeds⟩ := TransGen.tail'_iff.mp h
  exact (leads_of_needs hpath).edges hneeds

/-- A key that needs itself is that of a node. -/
theorem Leads.exists_node (h : Leads a n k) (hcycle : TransGen (Needs a) k k) :
    ∃ n', k = n'.key ∧ ReflTransGen (Edge a) n n' ∧ n'.Cyclic a := by
  cases h with
  | @node n' hpath => exact ⟨n', rfl, hpath, edges_of_needs hcycle⟩
  | @global n' field hpath hneeds =>
    -- What a global variable needs is a type, and types need types only.
    obtain ⟨k', hfirst, hback⟩ := TransGen.head'_iff.mp hcycle
    cases hfirst with
    | fieldType hf => exact absurd (stage_le_of_needs hback) (by simp [Key.stage])

/-- Where nothing is wrong with the nodes that are reached, nothing is wrong with what they need. -/
theorem Leads.sound (h : Leads a n k)
    (hpasses : ∀ n', ReflTransGen (Edge a) n n' → n'.Passes a) : Sound a k := by
  cases h with
  | node hpath => exact (hpasses _ hpath).sound
  | global hpath hneeds => exact (hpasses _ hpath).fields _ hneeds

end Edges

/-! ## The run -/

section Run

variable {a : Assembly} {requested : List EntryPoint} {entries : List EntryPoint}

theorem rooted_iff {k : Key} : Rooted a (firstAppearances requested) k ↔
    ∃ key ∈ a.entryKeys requested, k = .function key := by
  simp only [Rooted, Assembly.entryKeys, List.mem_filterMap, Option.map_eq_some_iff]
  constructor
  · rintro ⟨entry, hentry, m, hm, rfl⟩
    exact ⟨_, ⟨entry, hentry, m, hm, rfl⟩, rfl⟩
  · rintro ⟨_, ⟨entry, hentry, m, hm, rfl⟩, rfl⟩
    exact ⟨entry, hentry, m, hm, rfl⟩

/-- The functions of entry points are asked for. -/
theorem entryPoints_obeys (had : Key → Prop) :
    Task.Obeys (I := lowering) (Rooted a entries) had
      (∃ entry ∈ entries, a.method? entry.method = none) (Construct.entryPoints a entries)
      fun _ => ∀ entry ∈ entries, ∃ m, a.method? entry.method = some m ∧
        had (.function (FunctionKey.ofMethod m)) := by
  refine .forM fun entry hentry => ?_
  refine .bind (.ofOption fun hnone => ⟨entry, hentry, hnone⟩) fun m hm => ?_
  refine .bind (.ask ⟨entry, hentry, m, hm, rfl⟩) fun _ hhad => .pure ⟨m, hm, hhad⟩

/-- One thread that constructs entry points in their order makes a function of each of them, or fails and
says why. -/
theorem run_entryPoints_ends (hnumbered : a.Numbered) (entries : List EntryPoint) :
    (regime a).Ends [] (Rooted a entries) (∃ entry ∈ entries, a.method? entry.method = none)
    Session.start
    (fun _ _ => ∀ entry ∈ entries, ∃ m, a.method? entry.method = some m ∧
      Constructible a (.function (FunctionKey.ofMethod m)) ∧
        ∃ f, (Session.start.run a (Construct.entryPoints a entries)).2.slots.get?
          (.function (FunctionKey.ofMethod m)) = some (.ready f))
    (Session.start.run a (Construct.entryPoints a entries)) := by
  refine Session.run_ends hnumbered ?_ (entryPoints_obeys fun k => Constructible a k ∧ ∃ v,
      (Session.start.run a (Construct.entryPoints a entries)).2.slots.get? k = some (.ready v))
    (Regime.Tidy.start _) fun k v hgood hready => ⟨hgood, v, hready⟩
  rintro k ⟨entry, -, m, -, rfl⟩
  trivial

/-- Nothing fails for a fault where nothing is wrong with what the entry points reach, and a failure for a
cycle is that of a node on one. -/
theorem exists_cyclic_of_explains {e : Error} {bad : Prop} (hbad : ¬bad)
    (hpasses : ∀ n : Node, n.Reached a requested → n.Passes a)
    (h : (regime a).Explains (Rooted a (firstAppearances requested)) bad Session.start e) :
    ∃ n : Node, n.Reached a requested ∧ n.Cyclic a ∧ e = .cyclic n.key := by
  have hleads : ∀ k, (∃ root, Rooted a (firstAppearances requested) root ∧
      ReflTransGen (Needs a) root k) → ∃ key ∈ a.entryKeys requested, Leads a (.function key) k := by
    rintro k ⟨root, hroot, hpath⟩
    obtain ⟨key, hkey, rfl⟩ := rooted_iff.mp hroot
    exact ⟨key, hkey, leads_of_needs (n := .function key) hpath⟩
  cases e with
  | cyclic k =>
    obtain ⟨hcycle, root, hroot, hpath⟩ := h
    have hneeds : TransGen (Needs a) k k := cycle_of_asks hcycle
    obtain ⟨k', hfirst, -⟩ := TransGen.head'_iff.mp hneeds
    obtain ⟨key, hkey, hlead⟩ := hleads k ⟨root, hroot, needs_of_asks hpath hfirst.stage_pos⟩
    obtain ⟨n, rfl, hreached, hcyclic⟩ := hlead.exists_node hneeds
    exact ⟨n, ⟨key, hkey, hreached⟩, hcyclic, rfl⟩
  -- The session starts with no failed slot, so nothing can be poisoned.
  | poisoned k => simp [Regime.Explains, Session.start, State.start] at h
  | fault cause =>
    obtain ⟨root, k, hroot, hpath, hwrong⟩ := h.resolve_left hbad
    have hstage : 0 < k.stage := Nat.pos_of_ne_zero fun hleaf =>
      hwrong.not_constructible (constructible_of_leaf hleaf)
    obtain ⟨key, hkey, hlead⟩ := hleads k ⟨root, hroot, needs_of_asks hpath hstage⟩
    have hreached : ∀ n, ReflTransGen (Edge a) (.function key) n → n.Passes a :=
      fun n hpath => hpasses n ⟨key, hkey, hpath⟩
    rcases hwrong with hunsound | ⟨k', hneeds, hunsound⟩
    · exact absurd (hlead.sound hreached) hunsound
    · exact absurd ((hlead.tail hneeds).sound hreached) hunsound

theorem checkModels_of_fragment (hmodels : ∀ entry ∈ entries, entry.model = .fragment) :
    checkModels entries = .ok () := by
  induction entries with
  | nil => rfl
  | cons entry entries ih =>
    obtain ⟨hmodel, hmodels⟩ := List.forall_mem_cons.mp hmodels
    rw [checkModels, hmodel]
    exact ih hmodels

/-- Fragment shaders whose functions have been constructed are put together to a module. -/
theorem exists_assemble_eq_ok {s : Session} (hnumbered : a.Numbered)
    (hmodels : ∀ entry ∈ entries, entry.model = .fragment)
    (hrun : Session.start.run a (Construct.entryPoints a entries) = (.returned (.ok ()), s))
    (config : Config) :
    ∃ ready, s.shared.assemble a config s.function? entries = .ok (s.shared.module config ready) := by
  have hends := run_entryPoints_ends hnumbered entries
  rw [hrun] at hends
  obtain ⟨-, -, hmade⟩ := hends
  have hready : ∀ entry ∈ entries, ∃ r, ReadyEntry.ofEntry a s.function? entry = .ok r := by
    intro entry hentry
    obtain ⟨m, hm, -, f, hf⟩ := hmade entry hentry
    have hfunction : s.function? (FunctionKey.ofMethod m) = some f := by
      rw [Session.function?, State.ready?, hf]
      rfl
    exact ⟨_, ReadyEntry.ofEntry_eq_ok.mpr
      ⟨m, f, originUpperLeft, hm, hfunction, by rw [hmodels entry hentry]; rfl, rfl⟩⟩
  obtain ⟨ready, hall⟩ := exists_mapM_eq_ok hready
  refine ⟨ready, ?_⟩
  rw [Emission.assemble, hall]
  rfl

/-- Where nothing is wrong with what fragment shaders reach, they are compiled and nothing is on a cycle, or
the run fails with something that is on one. -/
theorem compile_ends (hnumbered : a.Numbered) (config : Config)
    (hentries : ∀ entry ∈ requested, entry.model = .fragment ∧ (a.method? entry.method).isSome)
    (hpasses : ∀ n : Node, n.Reached a requested → n.Passes a) :
    ((∃ m, compile a requested config = .returned (.ok m)) ∧
        ∀ n : Node, n.Reached a requested → ¬n.Cyclic a) ∨
      ∃ n : Node, n.Reached a requested ∧ n.Cyclic a ∧
        compile a requested config = .returned (.error (.cyclic n.key)) := by
  replace hentries : ∀ entry ∈ firstAppearances requested,
      entry.model = .fragment ∧ (a.method? entry.method).isSome := fun entry hentry =>
    hentries entry (mem_firstAppearances.mp hentry)
  have hmodels := checkModels_of_fragment fun entry hentry => (hentries entry hentry).1
  have hfound : ¬∃ entry ∈ firstAppearances requested, a.method? entry.method = none := by
    rintro ⟨entry, hentry, hnone⟩
    have hsome := (hentries entry hentry).2
    rw [hnone] at hsome
    cases hsome
  have hends := run_entryPoints_ends hnumbered (firstAppearances requested)
  simp only [compile, compileFrom, hmodels]
  rcases hrun : Session.start.run a (Construct.entryPoints a (firstAppearances requested)) with
    ⟨(e | _) | _ | _, s⟩ <;> rw [hrun] at hends
  · obtain ⟨n, hreached, hcyclic, rfl⟩ := exists_cyclic_of_explains hfound hpasses hends.2.2
    exact .inr ⟨n, hreached, hcyclic, rfl⟩
  · obtain ⟨-, -, hmade⟩ := hends
    obtain ⟨ready, hassembled⟩ :=
      exists_assemble_eq_ok hnumbered (fun entry hentry => (hentries entry hentry).1) hrun config
    -- A module was put together, so every root is good; a node on a cycle is never good.
    refine .inl ⟨⟨_, congrArg Outcome.returned hassembled⟩, ?_⟩
    rintro n ⟨key, hkey, hpath⟩ hcyclic
    obtain ⟨entry, hentry, m, hm, hroot⟩ := rooted_iff.mpr ⟨key, hkey, rfl⟩
    obtain ⟨m', hm', hgood, -⟩ := hmade entry hentry
    obtain rfl := Option.some.inj (hm.symm.trans hm')
    rw [← hroot] at hgood
    have hneeded : Reached a (Constructible a) n.key :=
      ⟨_, hgood, reflTransGen_needs_of_edges hpath⟩
    exact not_constructible_of_cycle (needs_of_edges hcyclic) (hneeded.constructible fun _ h => h)
  · exact hends.elim
  · exact hends.elim

end Run

/-! ## Calls in modules -/

section Modules

variable {a : Assembly} {requested : List EntryPoint} {e : Emission} {ready : List ReadyEntry}
  {h : History} {m : Module}

/-- What is among the calls in code is called. -/
theorem performs_of_mem_callsIn {p : Specialized} {site : UInt64 × List Il.Slot}
    (hsite : site ∈ Il.callsIn p.method.code.instructions) :
    ∃ result, p.Performs (.call result site.1 site.2) := by
  obtain ⟨i, hi, hcall⟩ := List.mem_filterMap.mp hsite
  split at hcall
  · next result wire slots hdecode =>
    obtain rfl := Option.some.inj hcall
    exact ⟨result, i, hi, hdecode⟩
  · cases hcall

/-- Calls in a module are edges between the keys of its functions. -/
theorem FunctionBlocks.edge_of_calls {keys : List FunctionKey} {number : FunctionKey → Word}
    (hblocks : FunctionBlocks a requested m keys number) {key : FunctionKey} {callee : Word}
    (hkey : key ∈ keys) (hcalls : m.Calls (number key) callee) :
    ∃ key' ∈ keys, number key' = callee ∧ Edge a (.function key) (.function key') := by
  obtain ⟨block, hblock, hid, call, hcall, hcallee⟩ := hcalls
  obtain ⟨hlength, hids⟩ := List.forall₂_iff_zip.mp hblocks.blocks
  have hsnd : (keys.zip m.blocks).map Prod.snd = m.blocks := List.map_snd_zip hlength.ge
  rw [← hsnd] at hblock
  obtain ⟨⟨key', _⟩, hmem, rfl⟩ := List.mem_map.mp hblock
  have hsame : number key' = number key := Option.some.inj ((hids hmem).symm.trans hid)
  obtain rfl := hblocks.distinct key' (List.of_mem_zip hmem).1 key hkey hsame
  obtain ⟨p, hp, hall⟩ := hblocks.calls key' _ hmem
  obtain ⟨site, hsite, target, block, htarget, hmem', hfits⟩ := forall₂_mem_left hall.flip hcall
  obtain ⟨result, hop⟩ := performs_of_mem_callsIn hsite
  refine ⟨target, (List.of_mem_zip hmem').1, ?_, .callee hp hop htarget⟩
  rw [hfits.callee, hids hmem'] at hcallee
  exact Option.some.inj hcallee

theorem FunctionBlocks.edges_of_calls {keys : List FunctionKey} {number : FunctionKey → Word}
    (hblocks : FunctionBlocks a requested m keys number) {key : FunctionKey} {callee : Word}
    (hkey : key ∈ keys) (hcalls : TransGen m.Calls (number key) callee) :
    ∃ key' ∈ keys, number key' = callee ∧ TransGen (Edge a) (.function key) (.function key') := by
  induction hcalls with
  | single hcall =>
    obtain ⟨key', hkey', hnumber, hedge⟩ := hblocks.edge_of_calls hkey hcall
    exact ⟨key', hkey', hnumber, .single hedge⟩
  | tail _ hcall ih =>
    obtain ⟨key₁, hkey₁, rfl, hpath⟩ := ih
    obtain ⟨key', hkey', hnumber, hedge⟩ := hblocks.edge_of_calls hkey₁ hcall
    exact ⟨key', hkey', hnumber, .tail hpath hedge⟩

/-- Only functions of a module call anything in it. -/
theorem FunctionBlocks.exists_caller {keys : List FunctionKey} {number : FunctionKey → Word}
    (hblocks : FunctionBlocks a requested m keys number) {caller callee : Word}
    (hcalls : TransGen m.Calls caller callee) : ∃ key ∈ keys, number key = caller := by
  obtain ⟨_, ⟨block, hblock, hid, -⟩, -⟩ := TransGen.head'_iff.mp hcalls
  obtain ⟨key, hkey, hnumber⟩ := forall₂_mem_left hblocks.blocks.flip hblock
  exact ⟨key, hkey, Option.some.inj (hnumber.symm.trans hid)⟩

/-- What a module is made of can be constructed. -/
theorem Compiled.constructible {config : Config} (hcompiled : Compiled a requested config e ready m)
    (hlegible : e.Legible ready) {n : Node} (hreached : n.Reached a requested) :
    Constructible a n.key := by
  obtain ⟨⟨h, hm⟩, -⟩ := hcompiled.materialized hlegible.ids
  obtain ⟨key, hkey, hpath⟩ := hreached
  have hneeded : Reached a (Rooted a (firstAppearances requested)) n.key :=
    ⟨_, rooted_iff.mpr ⟨key, hkey, rfl⟩, reflTransGen_needs_of_edges hpath⟩
  exact hneeded.constructible hm.constructible

theorem Constructible.passes {n : Node} (hn : Constructible a n.key) : n.Passes a :=
  ⟨hn.sound, fun _ hneeds => (hn.needs hneeds).sound⟩

/-- The functions of a module do not call each other in a circle. -/
theorem Compiled.calls_acyclic {config : Config} (hcompiled : Compiled a requested config e ready m)
    (hlegible : e.Legible ready) (id : Word) : ¬TransGen m.Calls id id := by
  obtain ⟨⟨h, hm⟩, rfl⟩ := hcompiled.materialized hlegible.ids
  have hblocks := hm.functionBlocks hlegible (hm.printed hlegible.toInstructionsFit config)
  intro hcycle
  obtain ⟨key, hkey, rfl⟩ := hblocks.exists_caller hcycle
  obtain ⟨key', hkey', hsame, hpath⟩ := hblocks.edges_of_calls hkey hcycle
  obtain rfl := hblocks.distinct key' hkey' key hkey hsame
  exact not_constructible_of_cycle (needs_of_edges hpath) (hm.constructible_of_mem hkey)

end Modules

/-! ## Recursion -/

/-- The entry points of fragment shaders are compiled if and only if nothing that they reach is on a
cycle, as far as nothing else is wrong with it; and if something is, then the run fails with the cyclic
construction of a function or type that is on a cycle.  Where the instructions and ids of a run fit the
format, the functions of its module never call each other in a circle. -/
theorem compile_rejects_recursion {a : Assembly} (hbuilt : a.Built) (requested : List EntryPoint)
    (config : Config) :
    ((∀ entry ∈ requested, entry.model = .fragment ∧ (a.method? entry.method).isSome) →
      (∀ n : Node, n.Reached a requested → n.Passes a) →
        ((∃ m, compile a requested config = .returned (.ok m)) ↔
          ∀ n : Node, n.Reached a requested → ¬n.Cyclic a) ∧
        ((∃ n : Node, n.Reached a requested ∧ n.Cyclic a) →
          ∃ n : Node, n.Reached a requested ∧ n.Cyclic a ∧
            compile a requested config = .returned (.error (.cyclic n.key)))) ∧
    ∀ e ready m, Compiled a requested config e ready m → e.Legible ready →
      ∀ id, ¬TransGen m.Calls id id := by
  refine ⟨fun hentries hpasses => ?_, fun e ready m hcompiled hlegible id =>
    hcompiled.calls_acyclic hlegible id⟩
  rcases compile_ends hbuilt.numbered config hentries hpasses with
    ⟨⟨m, hok⟩, hacyclic⟩ | ⟨n, hreached, hcyclic, herror⟩
  · refine ⟨⟨fun _ => hacyclic, fun _ => ⟨m, hok⟩⟩, ?_⟩
    rintro ⟨n, hreached, hcyclic⟩
    exact absurd hcyclic (hacyclic n hreached)
  · refine ⟨⟨?_, fun hacyclic => absurd hcyclic (hacyclic n hreached)⟩, fun _ =>
      ⟨n, hreached, hcyclic, herror⟩⟩
    rintro ⟨m, hok⟩
    rw [herror] at hok
    cases hok

section Spinner

open Il (Code Operation)

/-- Calls itself. -/
def spin : MethodDef where
  id := ⟨0⟩
  owner := ⟨0⟩
  name := "spin"
  fullName := "F::spin"
  returnType := none
  parameters := []
  locals := []
  attributes := [.static]
  code := (Code.empty.push (Operation.call none 0 []).encode).push Operation.ret.encode

/-- A type with a method that calls itself. -/
def spinner : Assembly where
  name := "spinner"
  types := #[⟨⟨0⟩, "F", .plain, [], []⟩]
  fields := #[]
  methods := #[spin]
  typeNames := [("F", ⟨0⟩)]

theorem spinner_built : spinner.Built := by
  have htype := Assembly.Built.addType (.empty "spinner") "F" .plain []
  have hmethod := htype.defineMethod ⟨0⟩ "spin" none [] [.static] rfl
  exact (hmethod.push ⟨0⟩ (Operation.call none 0 []).encode rfl).push ⟨0⟩ Operation.ret.encode rfl

/-- The method that calls itself, as its key says. -/
def spinning : Specialized :=
  ⟨⟨⟨0⟩, []⟩, spin, .empty⟩

theorem spinning_performs {op : Operation} (hop : spinning.Performs op) :
    op = .call none 0 [] ∨ op = .ret := by
  have hcode : spin.code.instructions =
      [(Operation.call none 0 []).encode, Operation.ret.encode] := rfl
  obtain ⟨i, hi, hdecode⟩ := hop
  rw [spinning, hcode] at hi
  simp only [List.mem_cons, List.not_mem_nil, or_false] at hi
  rcases hi with rfl | rfl
  · exact .inl (Except.ok.inj hdecode).symm
  · exact .inr (Except.ok.inj hdecode).symm

/-- The method that calls itself leads nowhere else. -/
theorem eq_spinning_of_edge {n : Node} (h : Edge spinner (.function spinning.key) n) :
    n = .function spinning.key := by
  have hspecialized : spinner.specialized? spinning.key = some spinning := rfl
  cases h with
  | callee hp hop hcallee =>
    obtain rfl := Option.some.inj (hspecialized.symm.trans hp)
    rcases spinning_performs hop with heq | heq <;> cases heq
    obtain rfl : spinning.key = _ := Option.some.inj hcallee
    rfl
  | type hp hid =>
    obtain rfl := Option.some.inj (hspecialized.symm.trans hp)
    cases hid
  | field hp hop hwire hfield hf =>
    obtain rfl := Option.some.inj (hspecialized.symm.trans hp)
    rcases spinning_performs hop with rfl | rfl <;> cases hwire

theorem spinning_sound : Sound spinner (.function spinning.key) := by
  have hcode : spin.code.instructions =
      [(Operation.call none 0 []).encode, Operation.ret.encode] := rfl
  refine ⟨spinning, rfl, fun i hi => ?_⟩
  rw [spinning, hcode] at hi
  simp only [List.mem_cons, List.not_mem_nil, or_false] at hi
  rcases hi with rfl | rfl
  · exact ⟨.call none 0 [], rfl, rfl, nofun, nofun⟩
  · exact ⟨.ret, rfl, trivial⟩

theorem spinner_passes {n : Node} (hreached : n.Reached spinner painterEntries) : n.Passes spinner := by
  obtain ⟨key, hkey, hpath⟩ := hreached
  obtain rfl : key = spinning.key := List.mem_singleton.mp hkey
  have hsame : n = .function spinning.key := by
    induction hpath with
    | refl => rfl
    | tail _ hedge ih =>
      subst ih
      exact eq_spinning_of_edge hedge
  subst hsame
  refine ⟨spinning_sound, fun field hneeds => ?_⟩
  have hspecialized : spinner.specialized? spinning.key = some spinning := rfl
  cases hneeds with
  | global hp hop hwire hfield =>
    obtain rfl := Option.some.inj (hspecialized.symm.trans hp)
    rcases spinning_performs hop with rfl | rfl <;> cases hwire

example : compile spinner painterEntries .standard =
    .returned (.error (.cyclic (.function spinning.key))) := by
  decide +kernel

/-- The two methods that are not recursive are compiled, and the one that is is rejected. -/
theorem painter_and_spinner :
    painter.Built ∧ (∀ n : Node, n.Reached painter painterEntries → n.Passes painter) ∧
      (∃ m, compile painter painterEntries .standard = .returned (.ok m)) ∧
      (∀ id, ¬TransGen painterModule.Calls id id) ∧
    spinner.Built ∧ (∀ n : Node, n.Reached spinner painterEntries → n.Passes spinner) ∧
      ∃ n : Node, n.Reached spinner painterEntries ∧ n.Cyclic spinner ∧
        compile spinner painterEntries .standard = .returned (.error (.cyclic n.key)) := by
  have hentries : ∀ {a : Assembly}, (a.method? ⟨0⟩).isSome = true → ∀ entry ∈ painterEntries,
      entry.model = .fragment ∧ (a.method? entry.method).isSome := fun hmethod entry hentry => by
    obtain rfl := List.mem_singleton.mp hentry
    exact ⟨rfl, hmethod⟩
  have hgood : ∀ n : Node, n.Reached painter painterEntries → Constructible painter n.key :=
    fun n hreached => painter_compiled.constructible painter_inFormat.legible hreached
  have hpasses : ∀ n : Node, n.Reached painter painterEntries → n.Passes painter :=
    fun n hreached => (hgood n hreached).passes
  obtain ⟨hpainter, hcalls⟩ := compile_rejects_recursion painter_built painterEntries .standard
  obtain ⟨hspinner, -⟩ := compile_rejects_recursion spinner_built painterEntries .standard
  refine ⟨painter_built, hpasses, ?_, hcalls _ _ _ painter_compiled painter_inFormat.legible,
    spinner_built, fun n => spinner_passes, ?_⟩
  · refine (hpainter (hentries rfl) hpasses).1.mpr fun n hreached hcyclic => ?_
    exact not_constructible_of_cycle (needs_of_edges hcyclic) (hgood n hreached)
  · refine (hspinner (hentries rfl) fun n => spinner_passes).2 ?_
    refine ⟨.function spinning.key, ⟨spinning.key, List.mem_singleton_self _, .refl⟩, .single ?_⟩
    exact .callee (p := spinning) rfl ⟨(Operation.call none 0 []).encode, List.mem_cons_self, rfl⟩ rfl

end Spinner

/-! ## Declarations of entry points that are too long -/

section Disguise

/-- The words of a function that calls itself and a word that begins no instruction, as text. -/
def disguise : String :=
  "6\x00\x05\x00voidspin\x00\x00\x00\x00type9\x00\x04\x00voidselfspin8\x00\x01\x00\x00\x00\x00\x00"

/-- What the text reads as. -/
def disguised : List Instruction :=
  [⟨Op.function.code, [0x64696f76, 0x6e697073, 0, 0x65707974]⟩,
    ⟨Op.functionCall.code, [0x64696f76, 0x666c6573, 0x6e697073]⟩, ⟨Op.functionEnd.code, []⟩]

/-- The name begins with the words of the text, whatever it ends with. -/
theorem literalString_idle (name : String) : literalString (idle disguise name).fullName =
    disguised.flatMap Instruction.encode ++ 0 :: literalBytes ("::" ++ name).toUTF8.data.toList := by
  have hbytes : (idle disguise name).fullName.toUTF8.data.toList =
      disguise.toUTF8.data.toList ++ ("::" ++ name).toUTF8.data.toList := by
    simp only [idle, String.append_assoc, String.toUTF8, String.toByteArray_append,
      ByteArray.toList_data_append]
  rw [literalString, hbytes]
  rfl

/-- The module of a method whose type is named after the function that calls itself. -/
def maskedModule (name : String) : Module :=
  idleEmission.module .standard [idleReady disguise name]

variable {name : String} (hsize : (idle disguise name).fullName.utf8ByteSize = 262143)

include hsize

/-- A declaration of 65539 words says that it has three. -/
theorem declaration_masked : (idleReady disguise name).declaration [] =
    0x3000F :: 4 :: 3 :: literalString (idle disguise name).fullName := by
  have hwords : (literalString (idle disguise name).fullName).length = 65536 := by
    have hbytes : (idle disguise name).fullName.toUTF8.data.toList.length = 262143 := hsize
    have hlength := length_literalBytes (idle disguise name).fullName.toUTF8.data.toList
    rw [hbytes] at hlength
    rw [literalString]
    omega
  have hoperands : (4 :: 3 :: literalString (idle disguise name).fullName).length = 65538 := by
    rw [List.length_cons, List.length_cons, hwords]
  rw [ReadyEntry.declaration, List.map_nil, List.append_nil]
  have hfirst : UInt32.ofNat ((65538 + 1) * UInt16.size + Op.entryPoint.code.toNat) = 0x3000F := by decide
  change Instruction.encode ⟨Op.entryPoint.code, 4 :: 3 :: literalString (idle disguise name).fullName⟩ = _
  rw [Instruction.encode, hoperands]
  exact congrArg (· :: 4 :: 3 :: literalString (idle disguise name).fullName) hfirst

/-- So the rest of it is read as further instructions. -/
theorem decode_headerSection_masked :
    Instruction.decode (idleEmission.headerSection [idleReady disguise name]) =
      [⟨Op.capability.code, [1]⟩, ⟨Op.memoryModel.code, [0, 1]⟩, ⟨Op.entryPoint.code, [4, 3]⟩] ++
        disguised := by
  have hinterface : idleEmission.interface = [] := List.mergeSort_nil
  have hfits : ∀ i ∈ [⟨Op.capability.code, [1]⟩, ⟨Op.memoryModel.code, [0, 1]⟩,
      ⟨Op.entryPoint.code, [4, 3]⟩] ++ disguised, Instruction.Fits i := by
    simp [disguised, Instruction.Fits, UInt16.size]
  refine Instruction.decode_eq_iff.mpr ⟨hfits,
    0 :: (literalBytes ("::" ++ name).toUTF8.data.toList ++ emit .executionMode [3, 7]), ?_, .inl rfl⟩
  rw [Emission.headerSection, hinterface, List.flatMap_singleton, declaration_masked hsize,
    literalString_idle]
  simp only [List.append_assoc, List.cons_append, List.nil_append]
  rfl

theorem calls_masked : ∃ id, (maskedModule name).Calls id id := by
  have hannotated : Instruction.decode idleEmission.annotations = idleEmission.annotated := by
    decide +kernel
  have hdeclared : Instruction.decode idleEmission.declarations = idleEmission.declared := by
    decide +kernel
  obtain ⟨annotated, declared, -, -, hinstructions⟩ :=
    idleEmission.renames_module .standard [idleReady disguise name] hdeclared hannotated
  rw [Emission.text, decode_headerSection_masked hsize] at hinstructions
  set ρ := Layout.newId (idleEmission.distinctIds [idleReady disguise name])
  obtain ⟨rest, hblocks⟩ : ∃ rest, (maskedModule name).blocks =
      (disguised.map (Instruction.mapIds ρ) ++ rest.takeWhile (¬ Instruction.Begins ·)) ::
        blocks rest := by
    refine ⟨(annotated ++ declared ++ Layout.functionsOf ((Layout.callOrder
      [idleFunction]).map Function.body)).map (Instruction.mapIds ρ), ?_⟩
    rw [Module.blocks, maskedModule, hinstructions]
    simp only [List.append_assoc, List.map_append]
    rw [blocks_append (by simp [Instruction.op?])]
    rfl
  -- The layout numbers the ids of the text like all others.
  refine ⟨ρ 0x6e697073, _, hblocks ▸ List.mem_cons_self, rfl, Instruction.mapIds ρ
    ⟨Op.functionCall.code, [0x64696f76, 0x666c6573, 0x6e697073]⟩, ?_, rfl⟩
  exact List.mem_filter.mpr ⟨List.mem_append_left _ (by simp [disguised]), rfl⟩

omit hsize

/-- A name that is long enough for the length of the declaration to wrap. -/
def endless : String :=
  .ofList (List.replicate 262097 'a')

theorem utf8ByteSize_endless : endless.utf8ByteSize = 262097 := by
  have hreplicate : ∀ n, (String.ofList (List.replicate n 'a')).utf8ByteSize = n := fun n => by
    rw [← String.size_toByteArray, String.toByteArray_ofList, List.utf8Encode, List.size_toByteArray]
    simp [List.length_flatMap, String.utf8EncodeChar]
  exact hreplicate 262097

/-- The one method of the assembly calls nothing, and yet its module has a function that calls itself. -/
theorem masked_calls_itself : (solitary disguise endless).Built ∧
    compile (solitary disguise endless) [⟨⟨0⟩, .fragment⟩] .standard =
      .returned (.ok (maskedModule endless)) ∧
    ∃ id, TransGen (maskedModule endless).Calls id id := by
  have hprefix : (disguise ++ "::").utf8ByteSize = 46 := by decide +kernel
  have hsize : (disguise ++ "::" ++ endless).utf8ByteSize = 262143 := by
    rw [String.utf8ByteSize_append, hprefix, utf8ByteSize_endless]
  obtain ⟨id, hcalls⟩ := calls_masked hsize
  exact ⟨solitary_built disguise endless, compile_solitary disguise endless, id, .single hcalls⟩

end Disguise

end ShaderLowering
