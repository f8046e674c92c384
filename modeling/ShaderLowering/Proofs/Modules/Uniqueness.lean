import ShaderLowering.Proofs.Modules.Exhaustion
import ShaderLowering.Proofs.Sessions.Turns
import ShaderLowering.Proofs.Writings.Owners

/-!
# No run declares anything twice, and no module does

What a run has written can be attributed at any time, whatever it has been asked for and however its
threads have taken their steps (`Arises.attributed`); so nothing is declared twice in it.  The layout
rearranges what has been written and renames it (`Emission.renames_module`) without confusing ids, so
nothing is declared twice in a module either (`declaredOnce_of_arises`).
-/

namespace ShaderLowering

open Construction
open Spirv
open Layout (idsOf)

/-! ## What the statement speaks of -/

/-- What a run may have written at some time, with the states of its slots then: threads ask for one thing
after another, workers construct entry points, or a session is asked. -/
inductive Arises (a : Assembly) : Emission → ((k : Key) → Option (SlotState k.Value)) → Prop
  | clients (requests : List (List Request)) (schedule : List ThreadId) :
      Arises a ((Clients.start a requests).follow a schedule).world.shared
        ((Clients.start a requests).follow a schedule).world.state?
  | workers (dealt : List (List EntryPoint)) (schedule : List ThreadId) :
      Arises a ((WorkerPool.start a dealt).follow a schedule).world.shared
        ((WorkerPool.start a dealt).follow a schedule).world.state?
  | session (hnumbered : a.Numbered) (requests : List Request) :
      Arises a (Session.start.askAll a requests).shared (Session.start.askAll a requests).slots.get?

/-- Nothing has been declared twice among the instructions that have been written. -/
def Emission.HoldsOnce (a : Assembly) (e : Emission)
    (state? : (k : Key) → Option (SlotState k.Value)) : Prop :=
  DeclaredOnce a (e.ids.issued < UInt32.size) (Instruction.decode e.declarations)
    (Instruction.decode e.annotations) (typeSlot? state?) (globalSlot? state?)

/-- A module is what has been written, rearranged and under other ids that are told apart, and nothing
is declared in it twice. -/
def Emission.KeptOnce (a : Assembly) (e : Emission) (state? : (k : Key) → Option (SlotState k.Value))
    (entries : List ReadyEntry) (m : Module) : Prop :=
  ∃ (r : Word → Word) (annotated declared : List Instruction),
    annotated.Perm e.annotated ∧ declared.Perm e.declared ∧
      m.instructions = (e.text entries annotated declared).map (Instruction.mapIds r) ∧
      Set.InjOn r {w | w ∈ idsOf e.declared} ∧
      DeclaredOnce a (e.ids.issued < UInt32.size) (declared.map (Instruction.mapIds r))
        (annotated.map (Instruction.mapIds r)) (renameSlot r (typeSlot? state?))
        (renameSlot r (globalSlot? state?))

/-! ## Runs -/

section Runs

variable {a : Assembly} {e : Emission} {state? : (k : Key) → Option (SlotState k.Value)}

/-- What silent threads have written can be attributed. -/
theorem exists_attributed {α : Type} {tasks : List (Construct α)}
    (htasks : ∀ task ∈ tasks, task.Silent a) (schedule : List ThreadId) :
    let m := (Machine.start tasks Emission.empty).follow (recipes a) schedule
    ∃ h, Attributed a h m.world.shared m.world.state? := by
  obtain ⟨h, hgoverned⟩ := exists_recorded a htasks schedule
  refine ⟨h, hgoverned.inv, fun note hnote => hgoverned.known _ (hgoverned.noted note hnote),
    fun note hnote => ?_, hgoverned.ready⟩
  obtain ⟨slot, hslot⟩ := Option.isSome_iff_exists.mp (hgoverned.noted note hnote)
  cases slot with
  | building => exact .inl hslot
  | ready v => exact .inr ⟨v, hslot⟩
  | failed =>
    -- A construction that was given up has left no notes.
    have hnothing : Writings.of h note.1 = [] := hgoverned.abandoned note.1 hslot
    have hmem : note.2 ∈ Writings.of h note.1 := Writings.mem_of.mpr hnote
    rw [hnothing] at hmem
    cases hmem

/-- What has been written can be attributed at any time. -/
theorem Arises.attributed (harises : Arises a e state?) : ∃ h, Attributed a h e state? := by
  have hclients : ∀ (requests : List (List Request)) schedule, ∃ h, Attributed a h
      ((Clients.start a requests).follow a schedule).world.shared
        ((Clients.start a requests).follow a schedule).world.state? := fun requests schedule => by
    refine exists_attributed (fun task htask => ?_) schedule
    obtain ⟨turn, -, rfl⟩ := List.mem_map.mp htask
    exact silent_inTurn a turn
  cases harises with
  | clients requests schedule => exact hclients requests schedule
  | workers dealt schedule =>
    refine exists_attributed (fun task htask => ?_) schedule
    obtain ⟨part, -, rfl⟩ := List.mem_map.mp htask
    exact silent_entryPoints a part
  | session hnumbered requests =>
    obtain ⟨schedule, hmirrors⟩ := Session.askAll_follow hnumbered requests
    obtain ⟨h, hattributed⟩ := hclients [requests] schedule
    rw [hmirrors.shared, funext hmirrors.state?] at hattributed
    exact ⟨h, hattributed⟩

namespace Attributed

variable {h : Writings} (hattributed : Attributed a h e state?)

include hattributed

theorem annotated_fits : ∀ i ∈ e.annotated, i.Fits := by
  intro i hi
  rw [hattributed.recorded.annotated_eq] at hi
  obtain ⟨o, -, rfl⟩ := List.mem_map.mp hi
  simp [Instruction.Fits, decoration, UInt16.size]

theorem decode_annotations : Instruction.decode e.annotations = e.annotated :=
  Instruction.decode_flatMap_encode hattributed.annotated_fits

/-- Every declaration is one of a meaning for an id. -/
theorem exists_declaration {i : Instruction} (hi : i ∈ e.declared) :
    ∃ d id, i = Declaration.instruction id d := by
  rw [hattributed.recorded.declared] at hi
  obtain ⟨⟨k, w⟩, -, hw⟩ := List.mem_filterMap.mp hi
  cases w with
  | declared d id => exact ⟨d, id, (Option.some.inj hw).symm⟩
  | decorated target location => cases hw

end Attributed

end Runs

/-! ## Modules -/

section Modules

variable {a : Assembly} {e : Emission} {state? : (k : Key) → Option (SlotState k.Value)}

/-- Nothing is declared twice in what has been written, nor in a module that is made of it. -/
theorem Arises.once (harises : Arises a e state?) (hfits : ∀ i ∈ e.declared, i.Fits) :
    e.HoldsOnce a state? ∧
      ∀ config entries, e.KeptOnce a state? entries (e.module config entries) := by
  obtain ⟨h, hattributed⟩ := harises.attributed
  have hdeclared : Instruction.decode e.declarations = e.declared :=
    Instruction.decode_flatMap_encode hfits
  have hannotated := hattributed.decode_annotations
  have honce := hattributed.declaredOnce
  refine ⟨?_, fun config entries => ?_⟩
  · rw [Emission.HoldsOnce, hdeclared, hannotated]
    exact honce
  · obtain ⟨annotated, declared, hannotations, hperm, hinstructions⟩ :=
      e.renames_module config entries hdeclared hannotated
    -- Ids that occur are kept apart by the layout, so nothing that is distinct falls together.
    have hinjective := e.newId_injOn entries
    refine ⟨_, annotated, declared, hannotations, hperm, hinstructions, hinjective, ?_⟩
    refine honce.renamed ⟨fun d hd => ?_, fun d hd => ?_, hinjective, hperm.map _⟩
      (hannotations.map _)
    · obtain ⟨declaration, id, rfl⟩ := hattributed.exists_declaration hd
      exact declares_instruction declaration id
    · obtain ⟨declaration, id, rfl⟩ := hattributed.exists_declaration hd
      rw [declaration.resultId?_instruction]
      rfl

/-- A module is made of what workers have written. -/
theorem Compiled.exists_arises {requested : List EntryPoint} {config : Config}
    {entries : List ReadyEntry} {m : Module} (hcompiled : Compiled a requested config e entries m) :
    ∃ state?, Arises a e state? ∧ m = e.module config entries := by
  obtain ⟨dealt, schedule, pool, rfl, -, -, -, rfl, -, rfl⟩ := hcompiled.exists_pool
  exact ⟨_, .workers dealt schedule, rfl⟩

/-- A module is the layout of what has been written under any table of opcodes: everything that is declared
has an opcode that is known to all of them. -/
theorem Compiled.module_eq {requested : List EntryPoint} {config : Config} {entries : List ReadyEntry}
    {m : Module} (hcompiled : Compiled a requested config e entries m) (hfits : ∀ i ∈ e.declared, i.Fits)
    (table : OpTable) :
    let bodies := (Layout.callOrder (entries.map ReadyEntry.function)).map Function.body
    let laidOut := Layout.canonicalize table (e.sections entries) bodies
    m = .ofWords (magic :: config.version :: config.generator :: laidOut.2 :: 0 :: laidOut.1) := by
  obtain ⟨state?, harises, rfl⟩ := hcompiled.exists_arises
  obtain ⟨h, hattributed⟩ := harises.attributed
  have hdeclares : ∀ d ∈ Instruction.decode (e.sections entries).declarations, Layout.Declares d := by
    intro d hd
    rw [Emission.sections, Emission.declarations, Instruction.decode_flatMap_encode hfits] at hd
    obtain ⟨declaration, id, rfl⟩ := hattributed.exists_declaration hd
    exact declares_instruction declaration id
  simp only [Emission.module, Layout.canonicalize_table hdeclares table .named]

end Modules

/-- Nothing is declared twice in what a run has written at any time, nor in a module that is made of it.
Every module that a run ends with is made of what it has written. -/
theorem declaredOnce_of_arises (a : Assembly) :
    (∀ e state?, Arises a e state? → (∀ i ∈ e.declared, i.Fits) →
      e.HoldsOnce a state? ∧ ∀ config entries, e.KeptOnce a state? entries (e.module config entries)) ∧
    ∀ requested config e entries m, Compiled a requested config e entries m →
      (∀ i ∈ e.declared, i.Fits) →
        ∃ state?, Arises a e state? ∧ e.HoldsOnce a state? ∧ e.KeptOnce a state? entries m := by
  refine ⟨fun e state? harises hfits => harises.once hfits,
    fun requested config e entries m hcompiled hfits => ?_⟩
  obtain ⟨state?, harises, rfl⟩ := hcompiled.exists_arises
  obtain ⟨hholds, hkept⟩ := harises.once hfits
  exact ⟨state?, harises, hholds, hkept config entries⟩

/-- Two clients that take steps in turn, and ask for a placeholder and an output in opposite orders. -/
def rivals : Clients :=
  (Clients.start painter [[.type (some ⟨1⟩), .global ⟨0⟩], [.global ⟨0⟩, .type (some ⟨1⟩)]]).follow
    painter (List.replicate 40 [0, 1]).flatten

/-- One request fails and both clients get the output, which is declared once; the module with the two
functions declares nothing twice either. -/
theorem painter_declaredOnce :
    (rivals.world.state? (.type ⟨1⟩) = some .failed ∧
      (rivals.world.ready? (.variable ⟨0⟩)).isSome = true ∧
      (∀ i ∈ rivals.world.shared.declared, i.Fits) ∧
      rivals.world.shared.HoldsOnce painter rivals.world.state?) ∧
    (∀ i ∈ painterSession.shared.declared, i.Fits) ∧
      ∃ state?, Arises painter painterSession.shared state? ∧
        painterSession.shared.HoldsOnce painter state? ∧
          painterSession.shared.KeptOnce painter state? painterReady painterModule := by
  have hdeclared : rivals.world.shared.declared.all (fun i => i.operands.length + 1 < UInt16.size) =
      true := by decide +kernel
  have hfits : ∀ i ∈ rivals.world.shared.declared, i.Fits := fun i hi => by
    simpa [Instruction.Fits] using List.all_eq_true.mp hdeclared i hi
  have harises : Arises painter rivals.world.shared rivals.world.state? := by
    unfold rivals
    exact .clients _ _
  refine ⟨⟨by decide +kernel, by decide +kernel, hfits, ?_⟩, painter_inFormat.declarations, ?_⟩
  · exact ((declaredOnce_of_arises painter).1 _ _ harises hfits).1
  · exact (declaredOnce_of_arises painter).2 _ _ _ _ _ painter_compiled painter_inFormat.declarations

end ShaderLowering
