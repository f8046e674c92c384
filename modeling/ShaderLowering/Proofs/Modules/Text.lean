import ShaderLowering.Proofs.Layout.CanonicalForm
import ShaderLowering.Proofs.Modules.Compiled

/-!
# The text of a module

The instructions of a run before they are laid out are lines with ids in the place of names
(`headerText`, `annotationText`, `declarationText`, `functionText`).  The layout places the declarations
among them, sorts the annotations and numbers the ids anew, so the module reads back as these lines under
other numbers: `Printed` says so, and `Materialized.printed` that it holds of every run whose instructions
fit the format.

The numbers of a printed module are those that `Printed.number` gives to names.
-/

namespace ShaderLowering

open Spirv
open Layout (idsOf newId placed instructionLe)

/-! ## Lines under any numbering -/

namespace Line

variable {line : Line} {ν : List Name}

/-- The instruction of a line under a numbering of names. -/
def instruction (number : Name → Word) (line : Line) : Instruction :=
  ⟨line.op.code, line.operands.map fun operand => match operand with
    | .word w => w
    | .name n => number n⟩

@[simp] theorem op?_instruction (number : Name → Word) (line : Line) :
    (line.instruction number).op? = some line.op :=
  Op.ofCode?_code line.op

/-- To rename the ids of a regular line is to number its names otherwise. -/
theorem Regular.mapIds_eq (h : line.Regular) (r : Word → Word) :
    (line.under ν).mapIds r = line.instruction (r ∘ wordOf ν) := by
  have hoperands : ((line.under ν).mapIds r).operands =
      (line.instruction (r ∘ wordOf ν)).operands := by
    apply List.ext_getElem?
    intro p
    rw [Instruction.getElem?_operands_mapIds, h ν]
    simp only [under, instruction, List.getElem?_map, List.mem_filter, List.mem_range, hasName]
    cases ho : line.operands[p]? with
    | none => rfl
    | some o =>
      have hin : p < line.operands.length := (List.getElem?_eq_some_iff.mp ho).1
      cases o with
      | word w => simp [Operand.under, Operand.name?]
      | name n => simp [Operand.under, Operand.name?, hin]
  exact congrArg (Instruction.mk line.op.code) hoperands

theorem Regular.ids_instruction (h : line.Regular) (r : Word → Word) :
    (line.instruction (r ∘ wordOf ν)).ids = line.names.map (r ∘ wordOf ν) := by
  rw [← h.mapIds_eq, Instruction.ids_mapIds, h.ids, List.map_map]

end Line

/-! ## The limits of the format -/

/-- No instruction that has been written for a module has more than 65535 words. -/
structure Emission.InstructionsFit (e : Emission) (ready : List ReadyEntry) : Prop where
  declarations : ∀ i ∈ e.declared, i.Fits
  calls : ∀ r ∈ ready, ∀ g, r.function.Below g → g.CallsFit
  entries : ∀ r ∈ ready, (r.declaration e.interface).length < UInt16.size

/-- What a run has written can be told apart: its instructions by their word counts, and its ids because
they have not wrapped around. -/
structure Emission.Legible (e : Emission) (ready : List ReadyEntry) : Prop extends
    e.InstructionsFit ready where
  ids : e.ids.issued < UInt32.size

/-- A run keeps to the limits of the format, in the declarations of its entry points too. -/
structure Emission.InFormat (e : Emission) (ready : List ReadyEntry) : Prop extends
    e.WithinLimits (ready.map ReadyEntry.function) where
  entries : ∀ r ∈ ready, (r.declaration e.interface).length < UInt16.size

theorem Emission.InFormat.legible {e : Emission} {ready : List ReadyEntry} (h : e.InFormat ready) :
    e.Legible ready where
  declarations := h.declarations
  calls r hr := h.calls r.function (List.mem_map_of_mem hr)
  entries := h.entries
  ids := Nat.lt_of_succ_lt h.ids

/-! ## What is laid out -/

section Text

variable (a : Assembly) (entries : List EntryPoint) (h : History) (keys : List FunctionKey)

/-- The header of a run. -/
def headerText : List Instruction :=
  (headerLines a (a.interface (exposed h)) entries).map (Line.under (names h))

/-- The annotations of a run. -/
def annotationText : List Instruction :=
  ((decorated h).map (locationLine a)).map (Line.under (names h))

/-- The declarations of a run. -/
def declarationText : List Instruction :=
  ((names h).filterMap (Name.form? a)).map (Line.under (names h))

/-- The functions of keys. -/
def functionText : List Instruction :=
  keys.flatMap fun key => (a.lines key).map (Line.under (names h))

/-- The declarations of a run in the order in which they are placed. -/
def placedText : List Instruction :=
  placed .named (declarationText a h) (idsOf (headerText a entries h ++ functionText a h keys))

/-- The ids of a run in the order in which they are numbered. -/
def distinctIds : List Word :=
  firstAppearances (idsOf (headerText a entries h ++ placedText a entries h keys ++
    functionText a h keys ++ annotationText a h))

/-- The number that a name has in the module. -/
def numberOf (n : Name) : Word :=
  newId (distinctIds a entries h keys) (wordOf (names h) n)

/-- Gives an instruction the ids of the module. -/
def renumbered (i : Instruction) : Instruction :=
  i.mapIds (newId (distinctIds a entries h keys))

/-- A module reads as the lines of a run, with the declarations placed, the annotations sorted and the ids
numbered anew. -/
structure Printed (m : Module) : Prop where
  instructions : m.instructions = (headerText a entries h).map (renumbered a entries h keys) ++
    ((annotationText a h).map (renumbered a entries h keys)).mergeSort instructionLe ++
    (placedText a entries h keys).map (renumbered a entries h keys) ++
    (functionText a h keys).map (renumbered a entries h keys)
  bound : m.bound = UInt32.ofNat ((distinctIds a entries h keys).length + 1)

end Text

/-- What is printed is what was there before, under new ids. -/
theorem exists_of_mem_printed {a : Assembly} {entries : List EntryPoint} {h : History}
    {keys : List FunctionKey} {i : Instruction}
    (hi : i ∈ (headerText a entries h).map (renumbered a entries h keys) ++
      ((annotationText a h).map (renumbered a entries h keys)).mergeSort instructionLe ++
      (placedText a entries h keys).map (renumbered a entries h keys) ++
      (functionText a h keys).map (renumbered a entries h keys)) :
    ∃ j ∈ headerText a entries h ++ annotationText a h ++ declarationText a h ++ functionText a h keys,
      i = renumbered a entries h keys j := by
  have hplaced : ∀ j, j ∈ placedText a entries h keys ↔ j ∈ declarationText a h := fun j =>
    (Layout.placed_perm _ _ _).mem_iff
  simp only [List.mem_append, List.mem_mergeSort, List.mem_map, hplaced] at hi ⊢
  rcases hi with ((⟨j, hj, rfl⟩ | ⟨j, hj, rfl⟩) | ⟨j, hj, rfl⟩) | ⟨j, hj, rfl⟩
  · exact ⟨j, .inl (.inl (.inl hj)), rfl⟩
  · exact ⟨j, .inl (.inl (.inr hj)), rfl⟩
  · exact ⟨j, .inl (.inr hj), rfl⟩
  · exact ⟨j, .inr hj, rfl⟩

section Run

variable {a : Assembly} {entries : List EntryPoint} {e : Emission} {ready : List ReadyEntry}
  {h : History}

/-- The words of a module are the header words and what the layout makes of the run. -/
theorem Emission.words_module (e : Emission) (config : Config) (ready : List ReadyEntry) :
    (e.module config ready).words = magic :: config.version :: config.generator ::
      (Layout.canonicalize .named (e.sections ready)
        ((Layout.callOrder (ready.map ReadyEntry.function)).map Function.body)).2 :: 0 ::
      (Layout.canonicalize .named (e.sections ready)
        ((Layout.callOrder (ready.map ReadyEntry.function)).map Function.body)).1 := by
  unfold Emission.module
  exact Module.words_ofWords _

/-- The keys of the functions of a module, in their order. -/
def ReadyEntry.order (ready : List ReadyEntry) : List FunctionKey :=
  (Layout.callOrder (ready.map ReadyEntry.function)).map Function.key

namespace Materialized

variable (hm : Materialized a entries e ready h)

include hm

theorem lowered : ∀ f ∈ ready.map ReadyEntry.function, Lowered a (names h) f := by
  obtain ⟨function?, hready, hlowered⟩ := hm.ready
  intro f hf
  obtain ⟨r, hr, rfl⟩ := List.mem_map.mp hf
  obtain ⟨entry, -, hentry⟩ := forall₂_mem_left (mapM_eq_ok.mp hready).flip hr
  obtain ⟨m, f, mode, -, hfunction, -, rfl⟩ := ReadyEntry.ofEntry_eq_ok.mp hentry
  exact (hlowered _ f hfunction).2

/-- The header of a run is its lines. -/
theorem headerSection : e.headerSection ready =
    wordsAt (names h) (headerLines a (a.interface (exposed h)) entries) := by
  obtain ⟨function?, hready, hlowered⟩ := hm.ready
  refine headerSection_eq hready (fun key f hf => ?_) hm.account.interface_eq
  obtain ⟨rfl, hfunction⟩ := hlowered key f hf
  exact hfunction.ids.1

/-- The lines of a header fit the format if the declarations of the entry points do. -/
theorem headerText_fits (hfits : e.InstructionsFit ready) :
    ∀ i ∈ headerText a entries h, i.Fits := by
  intro i hi
  obtain ⟨line, hline, rfl⟩ := List.mem_map.mp hi
  have hlength : (line.under (names h)).operands.length = line.operands.length := List.length_map _
  have hsize : UInt16.size = 65536 := rfl
  rw [Instruction.Fits, hlength]
  rcases mem_headerLines.mp hline with hline | ⟨entry, hentry, hline⟩ | ⟨entry, -, hline⟩
  · rcases List.mem_pair.mp hline with rfl | rfl <;> simp [hsize]
  · obtain ⟨function?, hready, -⟩ := hm.ready
    obtain ⟨r, hr, hof⟩ := forall₂_mem_left (mapM_eq_ok.mp hready) hentry
    obtain ⟨m, f, mode, hfound, -, -, rfl⟩ := ReadyEntry.ofEntry_eq_ok.mp hof
    obtain ⟨m', hm', rfl⟩ := Option.map_eq_some_iff.mp hline
    obtain rfl := Option.some.inj (hfound.symm.trans hm')
    have hentryFits := hfits.entries _ hr
    -- The interface that was counted for the limit is the one on the line.
    rw [hm.account.interface_eq] at hentryFits
    simpa [ReadyEntry.declaration, emit, Instruction.encode, entryLine] using hentryFits
  · obtain ⟨m, -, hline⟩ := Option.bind_eq_some_iff.mp hline
    obtain ⟨mode, -, rfl⟩ := Option.map_eq_some_iff.mp hline
    simp [modeLine, hsize]

/-- What the layout is given reads back as the lines of the run. -/
theorem decoded (hfits : e.InstructionsFit ready) :
    Instruction.decode (e.headerSection ready) = headerText a entries h ∧
      Instruction.decode e.annotations = annotationText a h ∧
      Instruction.decode e.declarations = declarationText a h ∧
      Layout.functionsOf ((Layout.callOrder (ready.map ReadyEntry.function)).map Function.body) =
        functionText a h (ReadyEntry.order ready) := by
  refine ⟨?_, ?_, ?_, ?_⟩
  · rw [hm.headerSection, wordsAt, ← List.flatMap_map]
    exact Instruction.decode_flatMap_encode (hm.headerText_fits hfits)
  · rw [Emission.annotations, hm.account.annotated_eq]
    refine Instruction.decode_flatMap_encode fun i hi => ?_
    obtain ⟨line, hline, rfl⟩ := List.mem_map.mp hi
    obtain ⟨field, -, rfl⟩ := List.mem_map.mp hline
    have hsize : UInt16.size = 65536 := rfl
    simp [Instruction.Fits, Line.under, locationLine, hsize]
  · rw [Emission.declarations, Instruction.decode_flatMap_encode hfits.declarations,
      hm.account.declared_eq, declarationText]
  · rw [Layout.functionsOf, functionText, ReadyEntry.order, List.flatMap_map, List.flatMap_map]
    refine List.flatMap_congr fun f hf => ?_
    obtain ⟨_, hroot, hbelow⟩ := Layout.below_of_mem_callOrderFrom hf
    obtain ⟨r, hr, rfl⟩ := List.mem_map.mp hroot
    exact (Lowered.of_mem_callOrder hm.lowered hf).decode_body (hfits.calls r hr f hbelow)

/-- Everything that is laid out fits the format. -/
theorem fits (hfits : e.InstructionsFit ready) : ∀ i ∈ headerText a entries h ++ annotationText a h ++
    declarationText a h ++ functionText a h (ReadyEntry.order ready), i.Fits := by
  obtain ⟨hheader, hannotations, hdeclarations, hfunctions⟩ := hm.decoded hfits
  intro i hi
  simp only [List.mem_append] at hi
  rcases hi with ((hi | hi) | hi) | hi
  · exact hm.headerText_fits hfits i hi
  · exact Instruction.fits_of_mem_decode (hannotations ▸ hi)
  · exact Instruction.fits_of_mem_decode (hdeclarations ▸ hi)
  · rw [← hfunctions, Layout.functionsOf, List.mem_flatMap] at hi
    obtain ⟨body, -, hi⟩ := hi
    exact Instruction.fits_of_mem_decode hi

/-- What the layout makes of a run is what it makes of the lines of the run. -/
theorem canonicalize_eq (hfits : e.InstructionsFit ready) : Layout.canonicalize .named (e.sections ready)
    ((Layout.callOrder (ready.map ReadyEntry.function)).map Function.body) =
      Layout.laidOut .named (headerText a entries h) (annotationText a h) (declarationText a h)
        (functionText a h (ReadyEntry.order ready)) := by
  obtain ⟨hheader, hannotations, hdeclarations, hfunctions⟩ := hm.decoded hfits
  rw [Layout.canonicalize_eq_laidOut, hfunctions]
  change Layout.laidOut .named (Instruction.decode (e.headerSection ready))
    (Instruction.decode e.annotations) (Instruction.decode e.declarations) _ = _
  rw [hheader, hannotations, hdeclarations]

/-- The module of a run whose instructions fit reads as the lines of the run. -/
theorem printed (hfits : e.InstructionsFit ready) (config : Config) :
    Printed a entries h (ReadyEntry.order ready) (e.module config ready) := by
  have hwords := e.words_module config ready
  rw [hm.canonicalize_eq hfits] at hwords
  refine ⟨?_, ?_⟩
  · rw [Module.instructions, hwords]
    refine Instruction.decode_flatMap_encode fun i hi => ?_
    obtain ⟨j, hj, rfl⟩ := exists_of_mem_printed hi
    exact Instruction.fits_mapIds.mpr (hm.fits hfits j hj)
  · rw [Module.bound, hwords]
    rfl

end Materialized

end Run

end ShaderLowering
