import ShaderLowering.Proofs.Modules.Schedules

/-!
# No id is wasted

A run gives ids to names that it declares and to the own names of functions.  What it declares is in the
module.  The own names that it notes under a function are those that the function takes
(`Materialized.own_mem_results`), no more, since a function that is ready has come to its end; and every
function of the run is one of the module.  So the names of a run are those that its module defines
(`Materialized.names_perm`), and with nothing but these to be numbered the layout permutes the ids that
were issued (`compiled_exhaustsIds`).
-/

namespace ShaderLowering

open Spirv
open Layout (idsOf newId instructionLe)

/-- What a run has written for a module: the header, annotations, declarations, and the bodies of the
functions in call order. -/
def Emission.text (e : Emission) (ready : List ReadyEntry) (annotated declared : List Instruction) :
    List Instruction :=
  Instruction.decode (e.headerSection ready) ++ annotated ++ declared ++
    Layout.functionsOf ((Layout.callOrder (ready.map ReadyEntry.function)).map Function.body)

/-- A module is what a run has written, with the annotations and the declarations rearranged and the ids
renamed. -/
def Renames (r : Word → Word) (e : Emission) (ready : List ReadyEntry) (m : Module) : Prop :=
  ∃ annotated declared, annotated.Perm e.annotated ∧ declared.Perm e.declared ∧
    m.instructions = (e.text ready annotated declared).map (Instruction.mapIds r)

/-- The ids that a run has issued are those of its module, under other numbers. -/
structure ExhaustsIds (e : Emission) (ready : List ReadyEntry) (m : Module) (r : Word → Word) :
    Prop where
  /-- The bound of the ids issued, one more than the last of them, has a word of its own. -/
  issued : e.ids.bound.toNat = e.ids.issued + 1
  /-- It is the bound in the header of the module. -/
  bound : m.header[Module.boundIndex]? = some e.ids.bound
  renames : Renames r e ready m
  bijective : Set.BijOn r {w | 1 ≤ w ∧ w < e.ids.bound} {w | 1 ≤ w ∧ w < e.ids.bound}
  /-- Every id issued is the result of an instruction that was written, and under its number of the same
  instruction in the module. -/
  defined : ∀ w, 1 ≤ w → w < e.ids.bound → ∃ i ∈ e.text ready e.annotated e.declared,
    i.defines? = some w ∧ i.mapIds r ∈ m.instructions ∧ (i.mapIds r).defines? = some (r w)

theorem Renames.mem {r : Word → Word} {e : Emission} {ready : List ReadyEntry} {m : Module}
    {i : Instruction} (h : Renames r e ready m) (hi : i ∈ e.text ready e.annotated e.declared) :
    i.mapIds r ∈ m.instructions := by
  obtain ⟨annotated, declared, hannotated, hdeclared, heq⟩ := h
  rw [heq]
  refine List.mem_map_of_mem ?_
  simpa only [Emission.text, List.mem_append, hannotated.mem_iff, hdeclared.mem_iff] using hi

/-- The ids of what a run has written for a module, in the order in which the layout numbers them. -/
def Emission.distinctIds (e : Emission) (ready : List ReadyEntry) : List Word :=
  let header := Instruction.decode (e.headerSection ready)
  let functions := Layout.functionsOf ((Layout.callOrder (ready.map ReadyEntry.function)).map
    Function.body)
  firstAppearances (idsOf (header ++ Layout.placed .named e.declared (idsOf (header ++ functions)) ++
    functions ++ e.annotated))

/-- The layout confuses no ids. -/
theorem Emission.newId_injOn_text (e : Emission) (ready : List ReadyEntry) :
    Set.InjOn (newId (e.distinctIds ready)) {w | w ∈ idsOf (e.text ready e.annotated e.declared)} := by
  refine (Layout.newId_injOn (nodup_firstAppearances _)).mono fun w hw => ?_
  change w ∈ e.distinctIds ready
  change w ∈ idsOf (e.text ready e.annotated e.declared) at hw
  rw [Emission.distinctIds, mem_firstAppearances]
  simp only [Emission.text, Layout.idsOf_append, List.mem_append,
    Layout.mem_idsOf_of_perm (Layout.placed_perm .named e.declared _)] at hw ⊢
  tauto

theorem Emission.newId_injOn (e : Emission) (ready : List ReadyEntry) :
    Set.InjOn (newId (e.distinctIds ready)) {w | w ∈ idsOf e.declared} := by
  refine (e.newId_injOn_text ready).mono fun w hw => ?_
  obtain ⟨i, hi, hw⟩ := List.mem_flatMap.mp hw
  exact List.mem_flatMap.mpr ⟨i, by simp [Emission.text, hi], hw⟩

/-- What a run has written fits the format. -/
theorem Emission.text_fits {e : Emission} {ready : List ReadyEntry} {annotated declared : List Instruction}
    (hannotated : ∀ i ∈ annotated, i ∈ Instruction.decode e.annotations)
    (hdeclared : ∀ i ∈ declared, i ∈ Instruction.decode e.declarations) :
    ∀ i ∈ e.text ready annotated declared, i.Fits := by
  intro i hi
  simp only [Emission.text, List.mem_append] at hi
  rcases hi with ((hi | hi) | hi) | hi
  · exact Instruction.fits_of_mem_decode hi
  · exact Instruction.fits_of_mem_decode (hannotated i hi)
  · exact Instruction.fits_of_mem_decode (hdeclared i hi)
  · obtain ⟨body, -, hi⟩ := List.mem_flatMap.mp hi
    exact Instruction.fits_of_mem_decode hi

/-- The words of a module are those that a run has written, with the declarations rearranged, the ids renamed
as the layout numbers them, and the annotations in the order that they then have. -/
theorem Emission.exists_module_eq (e : Emission) (config : Config) (ready : List ReadyEntry)
    (hdeclared : Instruction.decode e.declarations = e.declared)
    (hannotated : Instruction.decode e.annotations = e.annotated) :
    ∃ annotated declared bound, annotated.Perm e.annotated ∧ declared.Perm e.declared ∧
      (annotated.map (Instruction.mapIds (newId (e.distinctIds ready)))).Pairwise Layout.Precedes ∧
      e.module config ready = .ofWords (magic :: config.version :: config.generator :: bound :: 0 ::
        ((e.text ready annotated declared).map
          (Instruction.mapIds (newId (e.distinctIds ready)))).flatMap Instruction.encode) := by
  set bodies := (Layout.callOrder (ready.map ReadyEntry.function)).map Function.body
  set header := Instruction.decode (e.headerSection ready)
  set declared := Layout.placed .named e.declared (idsOf (header ++ Layout.functionsOf bodies))
  set r := newId (e.distinctIds ready)
  -- Sorting the renamed annotations is sorting the annotations by how they are renamed.
  set annotated := e.annotated.mergeSort fun i j => instructionLe (i.mapIds r) (j.mapIds r)
  have hsorted : annotated.map (Instruction.mapIds r) =
      (e.annotated.map (Instruction.mapIds r)).mergeSort instructionLe :=
    List.map_mergeSort fun _ _ _ _ => rfl
  have hwords : (Layout.canonicalize .named (e.sections ready) bodies).1 =
      ((e.text ready annotated declared).map (Instruction.mapIds r)).flatMap Instruction.encode := by
    have hlaid : Layout.canonicalize .named (e.sections ready) bodies =
        Layout.laidOut .named header (Instruction.decode e.annotations)
          (Instruction.decode e.declarations) (Layout.functionsOf bodies) := rfl
    rw [hlaid, hdeclared, hannotated, Emission.text, List.map_append, List.map_append,
      List.map_append, hsorted]
    rfl
  refine ⟨annotated, declared, (Layout.canonicalize .named (e.sections ready) bodies).2,
    List.mergeSort_perm _ _, Layout.placed_perm _ _ _, ?_, by rw [← hwords]; rfl⟩
  rw [hsorted]
  exact (List.pairwise_mergeSort Layout.instructionLe_trans Layout.instructionLe_total _).imp
    Layout.instructionLe_iff.mp

/-- A module renames what a run has written as the layout numbers its ids. -/
theorem Emission.renames_module (e : Emission) (config : Config) (ready : List ReadyEntry)
    (hdeclared : Instruction.decode e.declarations = e.declared)
    (hannotated : Instruction.decode e.annotations = e.annotated) :
    Renames (newId (e.distinctIds ready)) e ready (e.module config ready) := by
  obtain ⟨annotated, declared, bound, hannotations, hdeclarations, -, hmodule⟩ :=
    e.exists_module_eq config ready hdeclared hannotated
  refine ⟨annotated, declared, hannotations, hdeclarations, ?_⟩
  rw [Module.instructions, hmodule, Module.words_ofWords]
  refine Instruction.decode_flatMap_encode fun i hi => ?_
  obtain ⟨j, hj, rfl⟩ := List.mem_map.mp hi
  rw [Instruction.fits_mapIds]
  refine Emission.text_fits (fun i hi => ?_) (fun i hi => ?_) j hj
  · exact hannotated ▸ hannotations.mem_iff.mp hi
  · exact hdeclared ▸ hdeclarations.mem_iff.mp hi

/-! ## The names of a run -/

section Run

variable {a : Assembly} {requested : List EntryPoint} {e : Emission} {ready : List ReadyEntry}
  {h : History} {n : Name} {line : Line} {key : FunctionKey} {number : Nat}

namespace Materialized

variable (hm : Materialized a (firstAppearances requested) e ready h)

include hm

/-- A name of a function that has an id is the result of a line of the function, and the function is
reached. -/
theorem own_mem_results (hn : Name.own key number ∈ names h) :
    Reached a (Rooted a (firstAppearances requested)) (.function key) ∧
      Name.own key number ∈ (a.lines key).filterMap Line.defines? := by
  obtain ⟨k, hnote⟩ := mem_names.mp hn
  obtain rfl : Key.function key = k := hm.account.keyed k _ hnote
  have hreached : Reached a (Rooted a (firstAppearances requested)) (.function key) :=
    hm.known _ _ hnote
  refine ⟨hreached, ?_⟩
  obtain ⟨p, -, hp, rfl, hresults⟩ := exists_results_eq (hreached.constructible hm.constructible)
  obtain ⟨f, hf⟩ := hm.settled _ _ hnote
  have hmem := mem_notes.mpr hnote
  rw [hf.notes _ rfl, functionNotes, hp] at hmem
  obtain ⟨taken, htaken, heq⟩ := List.mem_map.mp hmem
  rw [hresults]
  exact List.mem_map.mpr ⟨taken, htaken, Note.issue.inj heq⟩

/-- Every name that has an id is defined by the module. -/
theorem mem_definedNames_of_mem (hlegible : e.Legible ready) (hn : n ∈ names h) :
    n ∈ definedNames a h (ReadyEntry.order ready) := by
  cases hform : n.form? a with
  | some line => exact mem_definedNames_of_declared hn (by rw [hform]; rfl)
  | none =>
    obtain ⟨key, number, rfl⟩ := Name.form?_eq_none.mp hform
    obtain ⟨hreached, hresult⟩ := hm.own_mem_results hn
    exact mem_definedNames_of_line (hm.mem_order_of_reached hlegible hreached) hresult

/-- The names that have ids are those that the module defines. -/
theorem names_perm (hlegible : e.Legible ready) :
    (definedNames a h (ReadyEntry.order ready)).Perm (names h) := by
  have hnodup := nodup_definedNames hm.account.nodup (hm.preorder_order hlegible).nodup
    fun key hkey => hm.constructible_of_mem hkey
  refine (List.perm_ext_iff_of_nodup hnodup hm.account.nodup).mpr fun n => ?_
  exact ⟨hm.mem_names_of_defined, hm.mem_definedNames_of_mem hlegible⟩

/-- A name that has an id is the result of a line of the module. -/
theorem exists_line_of_mem_names (hlegible : e.Legible ready) (hn : n ∈ names h) :
    ∃ line ∈ moduleLines a (firstAppearances requested) h (ReadyEntry.order ready),
      line.Resultful ∧ line.defines? = some n := by
  rcases List.mem_append.mp (hm.mem_definedNames_of_mem hlegible hn) with hn | hn
  · obtain ⟨hmem, hdeclared⟩ := List.mem_filter.mp hn
    obtain ⟨line, hform⟩ := Option.isSome_iff_exists.mp hdeclared
    obtain ⟨hdefines, hresultful, -⟩ := Name.defines?_of_form? hform
    refine ⟨line, List.mem_append_left _ (List.mem_append_right _ ?_), hresultful, hdefines⟩
    exact List.mem_filterMap.mpr ⟨n, hmem, hform⟩
  · obtain ⟨key, hkey, hn⟩ := List.mem_flatMap.mp hn
    obtain ⟨line, hline, hdefines⟩ := List.mem_filterMap.mp hn
    refine ⟨line, List.mem_append_right _ ?_, (Assembly.inBody_of_mem_lines hline).resultful, hdefines⟩
    exact List.mem_flatMap.mpr ⟨key, hkey, hline⟩

/-- The words of names are the words from 1 on below the bound of the ids issued. -/
theorem exists_name_iff (hids : e.ids.issued + 1 < UInt32.size) {w : Word} :
    (∃ n ∈ names h, w = wordOf (names h) n) ↔ 1 ≤ w ∧ w < e.ids.bound := by
  have hissued : (names h).length + 1 < UInt32.size := hm.account.issued ▸ hids
  have hwords : UInt32.ofNat '' Set.Icc 1 (names h).length = {v | 1 ≤ v ∧ v < e.ids.bound} := by
    rw [IdSource.bound, hm.account.issued]
    exact Layout.image_ofNat_Icc hissued
  change _ ↔ w ∈ {v | 1 ≤ v ∧ v < e.ids.bound}
  rw [← hwords]
  constructor
  · rintro ⟨n, hn, rfl⟩
    have hin := List.idxOf_lt_length_of_mem hn
    exact ⟨(names h).idxOf n + 1, ⟨by omega, by omega⟩, rfl⟩
  · rintro ⟨i, ⟨hpos, hle⟩, rfl⟩
    have hin : i - 1 < (names h).length := by omega
    refine ⟨(names h)[i - 1], List.getElem_mem hin, ?_⟩
    rw [wordOf, ident, hm.account.nodup.idxOf_getElem, Nat.sub_add_cancel hpos]

/-- What the layout numbers are the words of names. -/
theorem distinctIds_perm (hlegible : e.Legible ready)
    (hnames : ∀ entry ∈ requested, ∀ method, a.method? entry.method = some method →
      NulFree method.fullName) :
    (distinctIds a (firstAppearances requested) h (ReadyEntry.order ready)).Perm
      ((names h).map (wordOf (names h))) := by
  have hdistinct : (distinctIds a (firstAppearances requested) h (ReadyEntry.order ready)).Nodup :=
    nodup_firstAppearances _
  have hwords : ((names h).map (wordOf (names h))).Nodup :=
    hm.account.nodup.map_on fun n hn n' hn' heq =>
      ident_injective (hm.size_lt hlegible) hn hn' (congrArg Id.mk heq)
  refine (List.perm_ext_iff_of_nodup hdistinct hwords).mpr fun w => ?_
  simp only [hm.mem_distinctIds_iff hnames hlegible, (hm.names_perm hlegible).mem_iff, List.mem_map,
    eq_comm]

/-- What a run has written are the lines of its module. -/
theorem text_eq (hfits : e.InstructionsFit ready) : e.text ready e.annotated e.declared =
    (moduleLines a (firstAppearances requested) h (ReadyEntry.order ready)).map
      (Line.under (names h)) := by
  obtain ⟨hheader, -, -, hfunctions⟩ := hm.decoded hfits
  rw [← moduleText_eq, Emission.text, hheader, hfunctions, hm.account.annotated_eq,
    hm.account.declared_eq]
  rfl

/-- The module of a run renames its ids as the layout numbers them. -/
theorem renames (hfits : e.InstructionsFit ready) (config : Config) :
    Renames (newId (distinctIds a (firstAppearances requested) h (ReadyEntry.order ready))) e ready
      (e.module config ready) := by
  obtain ⟨hheader, hannotations, hdeclarations, hfunctions⟩ := hm.decoded hfits
  have hdeclared : e.declared = declarationText a h := hm.account.declared_eq
  have hannotated : e.annotated = annotationText a h := hm.account.annotated_eq
  have hdistinct : e.distinctIds ready =
      distinctIds a (firstAppearances requested) h (ReadyEntry.order ready) := by
    simp only [Emission.distinctIds, hheader, hfunctions, hdeclared, hannotated]
    rfl
  rw [← hdistinct]
  exact e.renames_module config ready (hdeclarations.trans hdeclared.symm)
    (hannotations.trans hannotated.symm)

end Materialized

end Run

/-! ## The module -/

/-- Every id that a run within the limits of the format issues becomes an id of its module. -/
theorem compiled_exhaustsIds {a : Assembly} {requested : List EntryPoint} {config : Config}
    {e : Emission} {ready : List ReadyEntry} {m : Module}
    (hcompiled : Compiled a requested config e ready m) (hlimits : e.InFormat ready)
    (hnames : ∀ entry ∈ requested, ∀ method, a.method? entry.method = some method →
      NulFree method.fullName) : ∃ r, ExhaustsIds e ready m r := by
  obtain ⟨⟨h, hm⟩, rfl⟩ := hcompiled.materialized (Nat.lt_of_succ_lt hlimits.ids)
  have hlegible := hlimits.legible
  have hfits := hlegible.toInstructionsFit
  set distinct := distinctIds a (firstAppearances requested) h (ReadyEntry.order ready) with hdistinct
  -- Every name that has been issued stands in the text of the module.
  have hperm : distinct.Perm ((names h).map (wordOf (names h))) := hm.distinctIds_perm hlegible hnames
  have hnodup : distinct.Nodup := nodup_firstAppearances _
  have hlength : distinct.length = e.ids.issued := by
    rw [hperm.length_eq, List.length_map, hm.account.issued]
  have hset : {w | w ∈ distinct} = {w | 1 ≤ w ∧ w < e.ids.bound} := by
    ext w
    rw [Set.mem_ofPred_eq, Set.mem_ofPred_eq, ← hm.exists_name_iff hlimits.ids, hperm.mem_iff,
      List.mem_map]
    simp only [eq_comm]
  have himage : newId distinct '' {w | w ∈ distinct} = {w | 1 ≤ w ∧ w < e.ids.bound} := by
    rw [Layout.image_newId hnodup, hlength]
    exact Layout.image_ofNat_Icc hlimits.ids
  have hrenames := hm.renames hfits config
  refine ⟨newId distinct, UInt32.toNat_ofNat_of_lt' hlimits.ids, ?bound, hrenames, ?bijective, ?defined⟩
  case bound =>
    have hbound := (hm.printed hfits config).bound
    rw [← hdistinct, hlength] at hbound
    rw [Module.bound, e.words_module] at hbound
    rw [Module.header, e.words_module]
    exact congrArg some hbound
  case bijective =>
    have hbijective : Set.BijOn (newId distinct) {w | w ∈ distinct}
        (newId distinct '' {w | w ∈ distinct}) := (Layout.newId_injOn hnodup).bijOn_image
    rwa [himage, hset] at hbijective
  case defined =>
    intro w hpos hlt
    -- An id below the bound is that of a name, and its line defines it.
    obtain ⟨n, hn, rfl⟩ := (hm.exists_name_iff hlimits.ids).mpr ⟨hpos, hlt⟩
    obtain ⟨line, hline, hresultful, hdefines⟩ := hm.exists_line_of_mem_names hlegible hn
    have hin : line.under (names h) ∈ e.text ready e.annotated e.declared :=
      hm.text_eq hfits ▸ List.mem_map_of_mem hline
    refine ⟨line.under (names h), hin, ?_, hrenames.mem hin, ?_⟩
    · exact (hresultful.defines? (wordOf (names h))).trans (by rw [hdefines]; rfl)
    · rw [(moduleLines_regular hnames hline).mapIds_eq, hresultful.defines?, hdefines]
      rfl

/-- The module with the two functions has all the ids of its run. -/
theorem painter_exhaustsIds : painterSession.shared.InFormat painterReady ∧
    (∀ entry ∈ painterEntries, ∀ method, painter.method? entry.method = some method →
      NulFree method.fullName) ∧
    ∃ r, ExhaustsIds painterSession.shared painterReady painterModule r :=
  ⟨painter_inFormat, painter_nulFree,
    compiled_exhaustsIds painter_compiled painter_inFormat painter_nulFree⟩

end ShaderLowering
