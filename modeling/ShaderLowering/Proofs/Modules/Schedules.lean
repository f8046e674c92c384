import ShaderLowering.Proofs.Lowering.Coverage
import ShaderLowering.Proofs.Modules.Results

/-!
# The module does not depend on the schedule

Two runs for the same entry points differ in the ids that names get, and in the order in which names,
decorations and exposed variables are noted.  They agree on which names are declared
(`Materialized.mem_names_of_declared`), because a run declares only what its functions lead to, and on
which variables are decorated and exposed.  So the text of one run is that of the other with the ids
renamed and declarations and annotations permuted, and as all declarations are reached from the functions
the layout forgets the difference (`Materialized.module_eq`).

Whether a run succeeds is a matter of the entry points alone, so two schedules either both fail or both
yield the same module (`compileOn_agree`).
-/

namespace ShaderLowering

open Construction
open Relation (ReflTransGen)
open Spirv
open Layout (idsOf)

/-! ## What is reached -/

section Reached

variable {a : Assembly} {requested : List EntryPoint} {e : Emission} {ready : List ReadyEntry}
  {h : History} {key : FunctionKey} {n : Name}

/-- Only functions need functions: those that they call. -/
theorem exists_caller_of_needs {k : Key} (hneeds : Needs a k (.function key)) :
    ∃ caller, k = .function caller ∧ key ∈ a.callees caller := by
  cases hneeds with
  | @callee caller _ p result wire slots hp hop hcallee =>
    obtain ⟨i, hi, hdecode⟩ := hop
    refine ⟨caller, rfl, ?_⟩
    rw [Assembly.callees, hp]
    exact Specialized.mem_calledBy hi hdecode (by simp [Specialized.called, hcallee])

namespace Materialized

variable (hm : Materialized a (firstAppearances requested) e ready h) (hlegible : e.Legible ready)

include hm hlegible

/-- The functions that a run reaches are those of the module. -/
theorem mem_order_of_reached
    (hreached : Reached a (Rooted a (firstAppearances requested)) (.function key)) :
    key ∈ ReadyEntry.order ready := by
  obtain ⟨root, ⟨entry, hentry, method, hmethod, rfl⟩, hpath⟩ := hreached
  generalize hk : Key.function key = k at hpath
  induction hpath generalizing key with
  | refl =>
    obtain rfl := Key.function.inj hk
    exact hm.ofMethod_mem_order hlegible hentry hmethod
  | tail _ hneeds ih =>
    subst hk
    obtain ⟨caller, rfl, hcallee⟩ := exists_caller_of_needs hneeds
    exact hm.callee_mem_order hlegible (ih rfl) hcallee

/-- The names of a run cover what its functions mention. -/
theorem covers_names : Covers a (Rooted a (firstAppearances requested)) (· ∈ names h) where
  lines _ hreached _ hline _ hn :=
    hm.mem_names_of_line (hm.mem_order_of_reached hlegible hreached) hline hn
  parts _ hn p hp := hm.account.grounded.parts_mem hn p hp

/-- What a run declares is in every set of names that covers what its functions mention. -/
theorem covered {S : Name → Prop} (hS : Covers a (Rooted a (firstAppearances requested)) S)
    (hn : n ∈ names h) (hdeclared : (n.form? a).isSome) : S n :=
  hS.mem hm.constructible (fun _ ⟨_, _, _, _, hk⟩ => ⟨_, hk⟩) hm.account (hm.size_lt hlegible)
    hm.known hn hdeclared

/-- All declarations of a run are reached from the ids in its functions. -/
theorem allReached (entries : List EntryPoint) : Layout.AllReached .named (declarationText a h)
    (idsOf (headerText a entries h ++ functionText a h (ReadyEntry.order ready))) := by
  set used := idsOf (headerText a entries h ++ functionText a h (ReadyEntry.order ready)) with hused
  have hcovers : Covers a (Rooted a (firstAppearances requested)) fun n =>
      n ∈ names h ∧ Layout.Reached .named (declarationText a h) used (wordOf (names h) n) := by
    constructor
    · intro key hreached line hline n hn
      have hkey := hm.mem_order_of_reached hlegible hreached
      refine ⟨hm.mem_names_of_line hkey hline hn, .used ?_⟩
      refine List.mem_flatMap.mpr ⟨line.under (names h), List.mem_append_right _ ?_, ?_⟩
      · exact List.mem_flatMap.mpr ⟨key, hkey, List.mem_map_of_mem hline⟩
      · rw [(Assembly.inBody_of_mem_lines hline).regular.ids]
        exact List.mem_map_of_mem hn
    · rintro n ⟨hn, hreached⟩ p hp
      refine ⟨hm.account.grounded.parts_mem hn p hp, ?_⟩
      obtain ⟨line, hform⟩ : ∃ line, n.form? a = some line := by
        cases hform : n.form? a with
        | some line => exact ⟨line, rfl⟩
        | none =>
          obtain ⟨key, number, rfl⟩ := Name.form?_eq_none.mp hform
          cases hp
      refine .refers (List.mem_map_of_mem (List.mem_filterMap.mpr ⟨n, hn, hform⟩))
        (Name.resultId?_of_form? hform _) hreached ?_
      rw [(Name.regular_of_form? hform).ids]
      exact List.mem_map_of_mem ((Name.mem_names_of_form? hform).mpr (.inr hp))
  intro d hd
  obtain ⟨line, hline, rfl⟩ := List.mem_map.mp hd
  obtain ⟨n, hn, hform⟩ := List.mem_filterMap.mp hline
  refine ⟨_, Name.resultId?_of_form? hform _, ?_⟩
  exact (hm.covered hlegible hcovers hn (by rw [hform]; rfl)).2

end Materialized

end Reached

/-! ## What is noted of variables -/

section Notes

variable {a : Assembly} {entries : List EntryPoint} {e : Emission} {ready : List ReadyEntry}
  {h : History} {field : FieldId}

/-- Where every note of a kind is made under the key of what it is about, and under no key twice, it is
about nothing twice. -/
theorem nodup_noted {β : Type} [DecidableEq β] {about? : Note → Option β} (make : β → Note)
    (keyOf : β → Key) (hmake : ∀ note b, about? note = some b ↔ note = make b)
    (hkey : ∀ k b, (k, make b) ∈ h → k = keyOf b) (hnotes : ∀ b, (notes h (keyOf b)).Nodup) :
    (noted about? h).Nodup := by
  rw [List.nodup_iff_count_le_one]
  intro b
  have hcount : (noted about? h).count b = (notes h (keyOf b)).count (make b) := by
    rw [noted, notes, List.count_filterMap, List.count_eq_countP, List.countP_map,
      List.countP_filter]
    refine List.countP_congr ?_
    rintro ⟨k, note⟩ hmem
    simp only [beq_iff_eq, hmake, Function.comp_apply, Bool.and_eq_true, decide_eq_true_eq]
    exact ⟨fun heq => ⟨heq, hkey k b (heq ▸ hmem)⟩, fun hboth => hboth.1⟩
  rw [hcount]
  exact List.nodup_iff_count_le_one.mp (hnotes b) _

namespace Materialized

variable (hm : Materialized a entries e ready h)

include hm

/-- What is noted under a variable is what there is to be noted. -/
theorem notes_of_noted {note : Note} (hnote : (.variable field, note) ∈ h) :
    notes h (.variable field) = variableNotes a field := by
  obtain ⟨v, hv⟩ := hm.settled _ _ hnote
  exact hv.notes _ rfl

theorem nodup_notes : (notes h (.variable field)).Nodup := by
  cases hnotes : notes h (.variable field) with
  | nil => exact List.nodup_nil
  | cons note rest =>
    have hmem : note ∈ notes h (.variable field) := by
      rw [hnotes]
      exact List.mem_cons_self
    rw [← hnotes, hm.notes_of_noted (mem_notes.mp hmem), variableNotes]
    cases a.location? field <;> simp

/-- A declared variable has all its notes. -/
theorem notes_of_declared (hn : Name.global field ∈ names h) :
    notes h (.variable field) = variableNotes a field := by
  obtain ⟨k, hnote⟩ := mem_names.mp hn
  obtain rfl : Key.variable field = k := hm.account.keyed k _ hnote
  exact hm.notes_of_noted hnote

/-- The variables that are exposed are those that are declared, each once. -/
theorem mem_exposed_iff : field ∈ exposed h ↔ Name.global field ∈ names h := by
  constructor
  · intro hfield
    obtain ⟨k, hnote⟩ := mem_exposed.mp hfield
    exact (hm.account.exposures k field hnote).2.1
  · intro hn
    refine mem_exposed.mpr ⟨.variable field, mem_notes.mp ?_⟩
    rw [hm.notes_of_declared hn]
    simp [variableNotes]

theorem nodup_exposed : (exposed h).Nodup :=
  nodup_noted Note.expose Key.variable
    (fun note b => by cases note <;> simp [Note.exposed?])
    (fun k b hmem => (hm.account.exposures k b hmem).1) fun _ => hm.nodup_notes

/-- The variables that are decorated are those that are declared and have a location, each once. -/
theorem mem_decorated_iff :
    field ∈ decorated h ↔ Name.global field ∈ names h ∧ (a.location? field).isSome := by
  constructor
  · intro hfield
    obtain ⟨k, hnote⟩ := mem_decorated.mp hfield
    obtain ⟨rfl, hn⟩ := hm.account.decorations k field hnote
    have hmem := mem_notes.mpr hnote
    rw [hm.notes_of_declared hn, variableNotes] at hmem
    refine ⟨hn, ?_⟩
    cases hlocation : a.location? field with
    | some _ => rfl
    | none => simp [hlocation] at hmem
  · rintro ⟨hn, hlocation⟩
    refine mem_decorated.mpr ⟨.variable field, mem_notes.mp ?_⟩
    obtain ⟨location, hlocation⟩ := Option.isSome_iff_exists.mp hlocation
    rw [hm.notes_of_declared hn]
    simp [variableNotes, hlocation]

theorem nodup_decorated : (decorated h).Nodup :=
  nodup_noted Note.decorate Key.variable
    (fun note b => by cases note <;> simp [Note.decorated?])
    (fun k b hmem => (hm.account.decorations k b hmem).1) fun _ => hm.nodup_notes

end Materialized

end Notes

/-! ## Two runs -/

/-- The id that one run gives to the name for which another has an id. -/
def translate (ν ν' : List Name) (w : Word) : Word :=
  ((ν[w.toNat - 1]?).map (wordOf ν')).getD 0

theorem translate_wordOf {ν : List Name} {n : Name} (hsize : ν.length < UInt32.size) (hn : n ∈ ν)
    (ν' : List Name) : translate ν ν' (wordOf ν n) = wordOf ν' n := by
  have hget : ν[ν.idxOf n]? = some n := List.getElem?_idxOf hn
  rw [translate, wordOf, toNat_ident hsize hn, Nat.add_sub_cancel, hget]
  rfl

section Two

variable {a : Assembly} {requested : List EntryPoint} {e e' : Emission} {ready ready' : List ReadyEntry}
  {h h' : History} {n : Name} {line : Line} {keys : List FunctionKey}

namespace Materialized

variable (hm : Materialized a (firstAppearances requested) e ready h) (hlegible : e.Legible ready)
  (hm' : Materialized a (firstAppearances requested) e' ready' h') (hlegible' : e'.Legible ready')

include hm hlegible hm' hlegible'

theorem order_eq : ReadyEntry.order ready = ReadyEntry.order ready' :=
  (hm.preorder_order hlegible).unique (hm'.preorder_order hlegible')

/-- What one run declares the other declares as well. -/
theorem mem_names_of_declared (hn : n ∈ names h) (hdeclared : (n.form? a).isSome) : n ∈ names h' :=
  hm.covered hlegible (hm'.covers_names hlegible') hn hdeclared

theorem mem_global_iff {field : FieldId} :
    Name.global field ∈ names h ↔ Name.global field ∈ names h' :=
  ⟨fun hn => hm.mem_names_of_declared hlegible hm' hlegible' hn rfl,
    fun hn => hm'.mem_names_of_declared hlegible' hm hlegible hn rfl⟩

/-- The runs expose the same variables. -/
theorem interface_exposed_eq : a.interface (exposed h) = a.interface (exposed h') := by
  refine Assembly.interface_eq_of_perm ?_
  refine (List.perm_ext_iff_of_nodup hm.nodup_exposed hm'.nodup_exposed).mpr fun field => ?_
  rw [hm.mem_exposed_iff, hm'.mem_exposed_iff]
  exact hm.mem_global_iff hlegible hm' hlegible'

/-- The runs decorate the same variables. -/
theorem decorated_perm : (decorated h').Perm (decorated h) := by
  refine (List.perm_ext_iff_of_nodup hm'.nodup_decorated hm.nodup_decorated).mpr fun field => ?_
  rw [hm.mem_decorated_iff, hm'.mem_decorated_iff, hm.mem_global_iff hlegible hm' hlegible']

/-- The runs declare the same lines. -/
theorem forms_perm :
    ((names h').filterMap (Name.form? a)).Perm ((names h).filterMap (Name.form? a)) := by
  have hfilter : ∀ ν : List Name, ν.filterMap (Name.form? a) =
      (ν.filter fun n => (n.form? a).isSome).filterMap (Name.form? a) := by
    intro ν
    rw [List.filterMap_filter]
    refine List.filterMap_congr fun n _ => ?_
    cases n.form? a <;> rfl
  rw [hfilter, hfilter (names h)]
  refine List.Perm.filterMap _ ((List.perm_ext_iff_of_nodup (hm'.account.nodup.filter _)
    (hm.account.nodup.filter _)).mpr fun n => ?_)
  rw [List.mem_filter, List.mem_filter]
  exact ⟨fun hn => ⟨hm'.mem_names_of_declared hlegible' hm hlegible hn.1 hn.2, hn.2⟩,
    fun hn => ⟨hm.mem_names_of_declared hlegible hm' hlegible' hn.1 hn.2, hn.2⟩⟩

/-- What a module defines has an id in both runs. -/
theorem mem_names_of_defined_other (hn : n ∈ definedNames a h (ReadyEntry.order ready)) :
    n ∈ names h' := by
  rcases List.mem_append.mp hn with hn | hn
  · obtain ⟨hmem, hdeclared⟩ := List.mem_filter.mp hn
    exact hm.mem_names_of_declared hlegible hm' hlegible' hmem hdeclared
  · rw [hm.order_eq hlegible hm' hlegible'] at hn
    obtain ⟨key, hkey, hn⟩ := List.mem_flatMap.mp hn
    obtain ⟨line, hline, hdefines⟩ := List.mem_filterMap.mp hn
    exact hm'.mem_names_of_line hkey hline (Line.mem_names_of_defines? hdefines)

variable (hnames : ∀ entry ∈ requested, ∀ method, a.method? entry.method = some method →
  NulFree method.fullName)

omit hm' hlegible' in
include hnames in
/-- Lines of a module read in one run as in the other, with the ids renamed. -/
theorem map_under_eq {lines : List Line}
    (hlines : ∀ line ∈ lines, line ∈ moduleLines a (firstAppearances requested) h
      (ReadyEntry.order ready)) (ν' : List Name) :
    (lines.map (Line.under (names h))).map (Instruction.mapIds (translate (names h) ν')) =
      lines.map (Line.under ν') := by
  rw [List.map_map]
  refine List.map_congr_left fun line hline => ?_
  refine (moduleLines_regular hnames (hlines line hline)).mapIds_under fun n hn => ?_
  exact translate_wordOf (hm.size_lt hlegible)
    (hm.mem_names_of_defined (hm.mem_definedNames hlegible (hlines line hline) hn)) ν'

/-- Ids that are different in one run are different in the other. -/
theorem translate_injOn : Set.InjOn (translate (names h) (names h'))
    {w | ∃ n ∈ definedNames a h (ReadyEntry.order ready), w = wordOf (names h) n} := by
  have hsize := hm.size_lt hlegible
  rintro _ ⟨n, hn, rfl⟩ _ ⟨n', hn', rfl⟩ heq
  rw [translate_wordOf hsize (hm.mem_names_of_defined hn),
    translate_wordOf hsize (hm.mem_names_of_defined hn')] at heq
  rw [ident_injective (hm'.size_lt hlegible')
    (hm.mem_names_of_defined_other hlegible hm' hlegible' hn)
    (hm.mem_names_of_defined_other hlegible hm' hlegible' hn') (congrArg Id.mk heq)]

include hnames

/-- The header of one run is that of the other, with the ids renamed. -/
theorem map_headerText :
    (headerText a (firstAppearances requested) h).map
        (Instruction.mapIds (translate (names h) (names h'))) =
      headerText a (firstAppearances requested) h' := by
  have hlines : ∀ line ∈ headerLines a (a.interface (exposed h)) (firstAppearances requested),
      line ∈ moduleLines a (firstAppearances requested) h (ReadyEntry.order ready) :=
    fun line hline => List.mem_append_left _ (List.mem_append_left _ (List.mem_append_left _ hline))
  rw [headerText, headerText, hm.map_under_eq hlegible hnames hlines,
    hm.interface_exposed_eq hlegible hm' hlegible']

/-- The functions of one run are those of the other, with the ids renamed. -/
theorem map_functionText_eq :
    (functionText a h (ReadyEntry.order ready)).map
        (Instruction.mapIds (translate (names h) (names h'))) =
      functionText a h' (ReadyEntry.order ready') := by
  have htext : ∀ ν, ((ReadyEntry.order ready).flatMap a.lines).map (Line.under ν) =
      (ReadyEntry.order ready).flatMap fun key => (a.lines key).map (Line.under ν) := fun ν =>
    List.map_flatMap
  have hlines : ∀ line ∈ (ReadyEntry.order ready).flatMap a.lines,
      line ∈ moduleLines a (firstAppearances requested) h (ReadyEntry.order ready) :=
    fun line hline => List.mem_append_right _ hline
  rw [functionText, functionText, ← htext, hm.map_under_eq hlegible hnames hlines, htext,
    hm.order_eq hlegible hm' hlegible']

/-- The declarations of one run are those of the other, with the ids renamed, in some order. -/
theorem declarationText_perm : (declarationText a h').Perm
    ((declarationText a h).map (Instruction.mapIds (translate (names h) (names h')))) := by
  have hlines : ∀ line ∈ (names h).filterMap (Name.form? a),
      line ∈ moduleLines a (firstAppearances requested) h (ReadyEntry.order ready) :=
    fun line hline => List.mem_append_left _ (List.mem_append_right _ hline)
  rw [declarationText, declarationText, hm.map_under_eq hlegible hnames hlines]
  exact (hm.forms_perm hlegible hm' hlegible').map _

/-- The annotations of one run are those of the other, with the ids renamed, in some order. -/
theorem annotationText_perm : (annotationText a h').Perm
    ((annotationText a h).map (Instruction.mapIds (translate (names h) (names h')))) := by
  have hlines : ∀ line ∈ (decorated h).map (locationLine a),
      line ∈ moduleLines a (firstAppearances requested) h (ReadyEntry.order ready) :=
    fun line hline => List.mem_append_left _ (List.mem_append_left _ (List.mem_append_right _ hline))
  rw [annotationText, annotationText, hm.map_under_eq hlegible hnames hlines]
  exact ((hm.decorated_perm hlegible hm' hlegible').map _).map _

/-- Two runs for the same entry points make the same module. -/
theorem module_eq (config : Config) : e.module config ready = e'.module config ready' := by
  set r := translate (names h) (names h') with hr
  set keys := ReadyEntry.order ready with hkeys
  set header := headerText a (firstAppearances requested) h with hheader
  have hids : ∀ w ∈ idsOf (header ++ declarationText a h ++ functionText a h keys),
      ∃ n ∈ definedNames a h keys, w = wordOf (names h) n := by
    intro w hw
    have hmem : w ∈ idsOf ((moduleLines a (firstAppearances requested) h keys).map
        (Line.under (names h))) := by
      rw [← moduleText_eq]
      simp only [Layout.idsOf_append, List.mem_append] at hw ⊢
      tauto
    obtain ⟨i, hi, hw⟩ := List.mem_flatMap.mp hmem
    obtain ⟨line, hline, rfl⟩ := List.mem_map.mp hi
    rw [(moduleLines_regular hnames hline).ids] at hw
    obtain ⟨n, hn, rfl⟩ := List.mem_map.mp hw
    exact ⟨n, hm.mem_definedNames hlegible hline hn, rfl⟩
  have hinjective : Set.InjOn r {w | w ∈ idsOf (header ++ declarationText a h ++
      functionText a h keys)} :=
    (hm.translate_injOn hlegible hm' hlegible').mono hids
  -- Ids of one run are translated to those of the other by way of the names that they stand for.
  have hrearranged : Layout.Rearranged .named (declarationText a h) (declarationText a h')
      (idsOf (header ++ functionText a h keys)) r := by
    refine ⟨fun d hd => ?_, hm.nodup_declared hlegible, hm.allReached hlegible _, ?_,
      hm.declarationText_perm hlegible hm' hlegible' hnames⟩
    · obtain ⟨line, hline, rfl⟩ := List.mem_map.mp hd
      obtain ⟨n, -, hform⟩ := List.mem_filterMap.mp hline
      rw [Layout.Declares, Line.op?_under]
      exact List.mem_map_of_mem (Name.op_of_form? hform)
    · refine hinjective.mono fun w hw => ?_
      change w ∈ _ ++ idsOf _ at hw
      simp only [Set.mem_ofPred_eq, Layout.idsOf_append, List.mem_append] at hw ⊢
      tauto
  have hannotated : ∀ w ∈ idsOf (annotationText a h),
      w ∈ idsOf (header ++ declarationText a h ++ functionText a h keys) := by
    intro w hw
    obtain ⟨i, hi, hw⟩ := List.mem_flatMap.mp hw
    obtain ⟨line, hline, rfl⟩ := List.mem_map.mp hi
    obtain ⟨field, hfield, rfl⟩ := List.mem_map.mp hline
    rw [locationLine_regular.ids] at hw
    obtain ⟨n, hn, rfl⟩ := List.mem_map.mp hw
    obtain rfl := mem_names_locationLine.mp hn
    have hdeclared := (hm.mem_decorated_iff.mp hfield).1
    obtain ⟨declaration, hform⟩ : ∃ line, (Name.global field).form? a = some line := ⟨_, rfl⟩
    have hmem : declaration.under (names h) ∈ declarationText a h :=
      List.mem_map_of_mem (List.mem_filterMap.mpr ⟨_, hdeclared, hform⟩)
    refine List.mem_flatMap.mpr ⟨_, List.mem_append_left _ (List.mem_append_right _ hmem), ?_⟩
    rw [(Name.regular_of_form? hform).ids]
    exact List.mem_map_of_mem ((Name.mem_names_of_form? hform).mpr (.inl rfl))
  have hlaid := Layout.laidOut_map hinjective hrearranged
    (hm.annotationText_perm hlegible hm' hlegible' hnames) hannotated
  -- Under the translation the texts of one run are those of the other, its declarations in another order.
  rw [hheader, hr, hkeys, hm.map_headerText hlegible hm' hlegible' hnames,
    hm.map_functionText_eq hlegible hm' hlegible' hnames] at hlaid
  simp only [Emission.module, hm.canonicalize_eq hlegible.toInstructionsFit,
    hm'.canonicalize_eq hlegible'.toInstructionsFit, hlaid]

end Materialized

end Two

/-! ## Two schedules -/

/-- The workers of a run after they have followed a schedule. -/
def poolOf (a : Assembly) (requested : List EntryPoint)
    (deal : List EntryPoint → List (List EntryPoint)) (schedule : List ThreadId) : WorkerPool :=
  (WorkerPool.start a (deal (firstAppearances requested))).follow a schedule

/-- What workers have written keeps to the limits of the format: fewer than `2 ^ 32 - 1` ids are issued,
and no instruction has more than 65535 words. -/
structure WorkerPool.WithinFormat (pool : WorkerPool) (a : Assembly) (entries : List EntryPoint) :
    Prop where
  ids : pool.world.shared.ids.issued + 1 < UInt32.size
  module : ∀ ready, entries.mapM (ReadyEntry.ofEntry a pool.function?) = .ok ready →
    pool.world.shared.InFormat ready

/-- A schedule that lets all workers come to their end has a result. -/
theorem exists_result_of_isOver {a : Assembly} {requested : List EntryPoint}
    {deal : List EntryPoint → List (List EntryPoint)} {schedule : List ThreadId}
    (hover : (poolOf a requested deal schedule).isOver = true) (config : Config) :
    ∃ result, compileOn a requested config deal schedule = some result := by
  unfold compileOn
  dsimp only
  split
  · exact ⟨_, rfl⟩
  · exact ⟨_, if_pos hover⟩

theorem checkModels_eq_ok {entries : List EntryPoint} (h : checkModels entries = .ok ()) :
    ∀ entry ∈ entries, ∃ mode, entry.model.mode = .ok mode := by
  induction entries with
  | nil => exact nofun
  | cons entry rest ih =>
    rw [checkModels] at h
    split at h
    · next mode hmode =>
      intro entry' hentry'
      rcases List.mem_cons.mp hentry' with rfl | hrest
      · exact ⟨mode, hmode⟩
      · exact ih h entry' hrest
    · cases h

/-- Where workers succeed, they have materialized the entry points. -/
theorem WorkerPool.exists_materialized {a : Assembly} {entries : List EntryPoint} {config : Config}
    {dealt : List (List EntryPoint)} {schedule : List ThreadId} {pool : WorkerPool} {m : Module}
    (hrun : (WorkerPool.start a dealt).follow a schedule = pool) (hover : pool.isOver = true)
    (hdeals : Deals dealt entries pool) (hlimits : pool.WithinFormat a entries)
    (hresult : pool.result a config entries = .ok m) : ∃ ready h,
      Materialized a entries pool.world.shared ready h ∧ pool.world.shared.Legible ready ∧
        m = pool.world.shared.module config ready := by
  rw [result] at hresult
  split at hresult
  · cases hresult
  · next hsucceeded =>
    obtain ⟨ready, hready, rfl⟩ := Emission.assemble_eq_ok hresult
    obtain ⟨h, hm⟩ := WorkerPool.materialized hrun hover hdeals (Nat.lt_of_succ_lt hlimits.ids)
      hsucceeded hready
    exact ⟨ready, h, hm, (hlimits.module ready hready).legible, rfl⟩

/-- Under any two schedules workers either fail or yield the same module. -/
theorem compileOn_agree {a : Assembly} {requested : List EntryPoint} {config : Config}
    {deal deal' : List EntryPoint → List (List EntryPoint)} {schedule schedule' : List ThreadId}
    {result result' : Except Error Module}
    (hresult : compileOn a requested config deal schedule = some result)
    (hresult' : compileOn a requested config deal' schedule' = some result')
    (hdeals : Deals (deal (firstAppearances requested)) (firstAppearances requested)
      (poolOf a requested deal schedule))
    (hdeals' : Deals (deal' (firstAppearances requested)) (firstAppearances requested)
      (poolOf a requested deal' schedule'))
    (hlimits : (poolOf a requested deal schedule).WithinFormat a (firstAppearances requested))
    (hlimits' : (poolOf a requested deal' schedule').WithinFormat a (firstAppearances requested))
    (hnames : ∀ entry ∈ requested, ∀ method, a.method? entry.method = some method →
      NulFree method.fullName) :
    (∃ error error', result = .error error ∧ result' = .error error') ∨
      ∃ m, result = .ok m ∧ result' = .ok m := by
  have hsplit : ∀ {deal schedule result},
      compileOn a requested config deal schedule = some result →
        (∃ fault, checkModels (firstAppearances requested) = .error fault ∧
          result = .error (.fault fault)) ∨
        (checkModels (firstAppearances requested) = .ok () ∧
          (poolOf a requested deal schedule).isOver = true ∧
          result = (poolOf a requested deal schedule).result a config
            (firstAppearances requested)) := by
    intro deal schedule result hresult
    unfold compileOn at hresult
    dsimp only at hresult
    split at hresult
    · next fault hmodels => exact .inl ⟨fault, hmodels, (Option.some.inj hresult).symm⟩
    · next hmodels =>
      split at hresult
      · next hover => exact .inr ⟨hmodels, hover, (Option.some.inj hresult).symm⟩
      · cases hresult
  rcases hsplit hresult with ⟨fault, hmodels, rfl⟩ | ⟨hmodels, hover, rfl⟩ <;>
    rcases hsplit hresult' with ⟨fault', hmodels', rfl⟩ | ⟨hmodels', hover', rfl⟩
  -- Models do not depend on the schedule, so either both fail here or neither does.
  · exact .inl ⟨_, _, rfl, rfl⟩
  · rw [hmodels] at hmodels'
    cases hmodels'
  · rw [hmodels] at hmodels'
    cases hmodels'
  · have hissued := Nat.lt_of_succ_lt hlimits.ids
    have hissued' := Nat.lt_of_succ_lt hlimits'.ids
    -- Neither does it depend on the schedule whether an entry point is available.
    by_cases havailable : ∀ entry ∈ firstAppearances requested, entry.Available a
    · have hmodes := checkModels_eq_ok hmodels
      obtain ⟨m, hok⟩ := WorkerPool.result_isOk rfl hover hdeals hissued havailable hmodes config
      obtain ⟨m', hok'⟩ := WorkerPool.result_isOk rfl hover' hdeals' hissued' havailable hmodes config
      obtain ⟨ready, h, hm, hformat, rfl⟩ :=
        WorkerPool.exists_materialized rfl hover hdeals hlimits hok
      obtain ⟨ready', h', hm', hformat', rfl⟩ :=
        WorkerPool.exists_materialized rfl hover' hdeals' hlimits' hok'
      have hsame := hm.module_eq hformat hm' hformat' hnames config
      exact .inr ⟨_, hok, hok'.trans (congrArg Except.ok hsame.symm)⟩
    · have hunavailable : ∃ entry ∈ firstAppearances requested, ¬entry.Available a := by
        simpa using havailable
      obtain ⟨error, herror⟩ := WorkerPool.result_isError rfl hover hdeals hissued hunavailable config
      obtain ⟨error', herror'⟩ :=
        WorkerPool.result_isError rfl hover' hdeals' hissued' hunavailable config
      exact .inl ⟨error, error', herror, herror'⟩

/-! ## One worker, and two that race -/

/-- One worker takes all steps. -/
def alone : List ThreadId :=
  List.replicate 120 0

/-- Two workers take steps in turn. -/
def inTurn : List ThreadId :=
  (List.replicate 150 [1, 0]).flatten

/-- Workers that make the two functions keep to the limits of the format. -/
theorem painter_withinFormat {pool : WorkerPool}
    (hids : pool.world.shared.ids.issued + 1 < UInt32.size)
    (hdeclared : pool.world.shared.declared.all (fun i => i.operands.length + 1 < UInt16.size) = true)
    (hglobals : pool.world.shared.globals.length = 1)
    (hready : (firstAppearances painterEntries).mapM (ReadyEntry.ofEntry painter pool.function?) =
      .ok painterReady) : pool.WithinFormat painter (firstAppearances painterEntries) := by
  refine ⟨hids, fun ready hmap => ?_⟩
  obtain rfl := Except.ok.inj (hready.symm.trans hmap)
  exact painterReady_inFormat hids hdeclared hglobals

theorem alone_withinFormat : (poolOf painter painterEntries (fun entries => [entries])
    alone).WithinFormat painter (firstAppearances painterEntries) :=
  painter_withinFormat (by decide +kernel) (by decide +kernel) (by decide +kernel) (by decide +kernel)

theorem inTurn_withinFormat : (poolOf painter painterEntries (fun entries => [entries, entries])
    inTurn).WithinFormat painter (firstAppearances painterEntries) :=
  painter_withinFormat (by decide +kernel) (by decide +kernel) (by decide +kernel) (by decide +kernel)

/-- One worker yields the same module as two that are both dealt the entry point. -/
theorem painter_agree : ∃ result result',
    compileOn painter painterEntries .standard (fun entries => [entries]) alone = some result ∧
    compileOn painter painterEntries .standard (fun entries => [entries, entries]) inTurn =
      some result' ∧
    ((∃ error error', result = .error error ∧ result' = .error error') ∨
      ∃ m, result = .ok m ∧ result' = .ok m) := by
  have hover : (poolOf painter painterEntries (fun entries => [entries]) alone).isOver = true := by
    decide +kernel
  have hover' : (poolOf painter painterEntries (fun entries => [entries, entries])
      inTurn).isOver = true := by decide +kernel
  obtain ⟨result, hresult⟩ := exists_result_of_isOver hover .standard
  obtain ⟨result', hresult'⟩ := exists_result_of_isOver hover' .standard
  exact ⟨result, result', hresult, hresult', compileOn_agree hresult hresult'
    (deals_of_all _ (by simp) (by simp)) (deals_of_all _ (by simp) (by simp))
    alone_withinFormat inTurn_withinFormat painter_nulFree⟩

end ShaderLowering
