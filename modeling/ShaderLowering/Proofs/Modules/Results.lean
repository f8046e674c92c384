import ShaderLowering.Proofs.Modules.Functions
import ShaderLowering.Proofs.Modules.Scopes

/-!
# The results of a module

What a module defines are the names that its run has declared and the own names of its functions
(`definedNames`), each once (`Materialized.nodup_results`), and everything that is on a line of the module
is among them (`Materialized.mem_definedNames`).  So if the names of the entry points are without the zero
character, its results are the numbers below the bound (`Materialized.mem_results_iff`).

The declarations of a module are those of its run in the order in which they are placed
(`Materialized.declarations_eq`).
-/

namespace ShaderLowering

open Spirv
open Layout (idsOf newId placed instructionLe)

/-! ## Results and declarations -/

namespace Spirv

namespace Module

/-- The results of a module, in order. -/
def results (m : Module) : List Word :=
  m.instructions.filterMap Instruction.defines?

/-- The instructions of a module before its functions that declare types, constants and global
variables. -/
def declarations (m : Module) : List Instruction :=
  m.preamble.filter Instruction.IsDeclaration

end Module

end Spirv

/-- Where no two members of a list have the same value, a value belongs to one member. -/
theorem eq_of_nodup_filterMap {α β : Type} {f : α → Option β} {xs : List α}
    (hnodup : (xs.filterMap f).Nodup) {x x' : α} (hx : x ∈ xs) (hx' : x' ∈ xs) {y : β}
    (hy : f x = some y) (hy' : f x' = some y) : x = x' := by
  induction xs with
  | nil => cases hx
  | cons first rest ih =>
    have hrest : ∀ {z}, z ∈ rest → f z = some y → y ∈ rest.filterMap f := fun hz hfz =>
      List.mem_filterMap.mpr ⟨_, hz, hfz⟩
    rcases List.mem_cons.mp hx with rfl | hin <;> rcases List.mem_cons.mp hx' with rfl | hin'
    · rfl
    · rw [List.filterMap_cons_some hy] at hnodup
      exact absurd (hrest hin' hy') (List.nodup_cons.mp hnodup).1
    · rw [List.filterMap_cons_some hy'] at hnodup
      exact absurd (hrest hin hy) (List.nodup_cons.mp hnodup).1
    · refine ih ?_ hin hin'
      rw [List.filterMap_cons] at hnodup
      split at hnodup
      · exact hnodup
      · exact (List.nodup_cons.mp hnodup).2

theorem Name.isSome_of_mem_parts {a : Assembly} {n p : Name} (hp : p ∈ n.parts a) :
    (p.form? a).isSome := by
  have hvalues : ∀ types : List ValueType, p ∈ types.map Name.value → (p.form? a).isSome := by
    rintro types hp
    obtain ⟨type, -, rfl⟩ := List.mem_map.mp hp
    exact isSome_form?_value type
  cases n with
  | value type =>
    cases type with
    | vector element size => exact hvalues [element] hp
    | struct id => exact hvalues (a.members id) hp
    | _ => cases hp
  | pointer storage pointee => exact hvalues [pointee] hp
  | signature returnType parameters => exact hvalues (returnType :: parameters) hp
  | constant type bits => exact hvalues [type] hp
  | global field =>
    obtain rfl := List.mem_singleton.mp hp
    rfl
  | own key number => cases hp

/-! ## What a module defines -/

section Run

variable {a : Assembly} {requested : List EntryPoint} {e : Emission} {ready : List ReadyEntry}
  {h : History} {keys : List FunctionKey} {key : FunctionKey} {n : Name} {line : Line} {m : Module}

/-- The names that a module defines: those that its run has declared, and the own names of its
functions. -/
def definedNames (a : Assembly) (h : History) (keys : List FunctionKey) : List Name :=
  (names h).filter (fun n => (n.form? a).isSome) ++
    keys.flatMap fun key => (a.lines key).filterMap Line.defines?

theorem mem_definedNames_of_declared (hn : n ∈ names h) (hdeclared : (n.form? a).isSome) :
    n ∈ definedNames a h keys :=
  List.mem_append_left _ (List.mem_filter.mpr ⟨hn, hdeclared⟩)

theorem mem_definedNames_of_line (hkey : key ∈ keys)
    (hn : n ∈ (a.lines key).filterMap Line.defines?) : n ∈ definedNames a h keys :=
  List.mem_append_right _ (List.mem_flatMap.mpr ⟨key, hkey, hn⟩)

/-- A constructible function begins with the line of its id, and after it is in its own scope. -/
theorem exists_scoped_tail (hf : Constructible a (.function key)) : ∃ p,
    a.specialized? key = some p ∧ p.key = key ∧ a.lines key = p.functionLine a :: (p.lines a).tail ∧
      p.Scoped a 1 (p.lines a).tail p.taken := by
  obtain ⟨p, hp, hcode⟩ := hf.sound
  refine ⟨p, hp, (Assembly.specialized?_eq_some.mp hp).1, ?_, p.scoped_tail hcode⟩
  rw [Assembly.lines_of_specialized hp]
  rfl

/-- The results of a function are the names that it takes, in their order. -/
theorem exists_results_eq (hf : Constructible a (.function key)) : ∃ p, 0 < p.taken ∧
    a.specialized? key = some p ∧ p.key = key ∧
      (a.lines key).filterMap Line.defines? = (List.range p.taken).map (Name.own key) := by
  obtain ⟨p, hp, rfl, hlines, hscoped⟩ := exists_scoped_tail hf
  have hpos : 0 < p.taken := Nat.lt_of_lt_of_le Nat.zero_lt_one hscoped.le
  refine ⟨p, hpos, hp, rfl, ?_⟩
  have hfirst : (p.functionLine a).defines? = some (p.own 0) := rfl
  have hcount : p.taken = p.taken - 1 + 1 := by omega
  rw [hlines, List.filterMap_cons_some hfirst, hscoped.filterMap_defines?, List.range_eq_range',
    hcount, List.range'_succ, List.map_cons]
  rfl

theorem own_mem_results (hf : Constructible a (.function key)) :
    Name.own key 0 ∈ (a.lines key).filterMap Line.defines? := by
  obtain ⟨p, hpos, -, -, hresults⟩ := exists_results_eq hf
  rw [hresults]
  exact List.mem_map_of_mem (List.mem_range.mpr hpos)

/-- The names that a module defines are different. -/
theorem nodup_definedNames (hnames : (names h).Nodup) (hkeys : keys.Nodup)
    (hconstructible : ∀ key ∈ keys, Constructible a (.function key)) :
    (definedNames a h keys).Nodup := by
  have hown : ∀ key ∈ keys, ∀ n ∈ (a.lines key).filterMap Line.defines?, ∃ number,
      n = .own key number := by
    intro key hkey n hn
    obtain ⟨p, -, -, -, hresults⟩ := exists_results_eq (hconstructible key hkey)
    rw [hresults] at hn
    obtain ⟨number, -, rfl⟩ := List.mem_map.mp hn
    exact ⟨number, rfl⟩
  refine List.nodup_append'.mpr ⟨hnames.filter _, ?_, ?_⟩
  · refine List.nodup_flatMap.mpr ⟨fun key hkey => ?_, ?_⟩
    · obtain ⟨p, -, -, -, hresults⟩ := exists_results_eq (hconstructible key hkey)
      rw [hresults]
      exact List.nodup_range.map fun _ _ heq => (Name.own.inj heq).2
    · refine (List.pairwise_iff_forall_sublist.mpr fun {key key'} hsub n hn hn' => ?_)
      have hboth := hsub.subset
      obtain ⟨number, rfl⟩ := hown key (hboth (by simp)) n hn
      obtain ⟨number', heq⟩ := hown key' (hboth (by simp)) _ hn'
      have hne : key ≠ key' := by simpa using hkeys.sublist hsub
      exact hne (Name.own.inj heq).1
  · intro n hn hn'
    obtain ⟨key, hkey, hn'⟩ := List.mem_flatMap.mp hn'
    obtain ⟨number, rfl⟩ := hown key hkey n hn'
    exact Bool.false_ne_true (List.mem_filter.mp hn).2

/-- What is declared are the names that have forms, in their order. -/
theorem filterMap_form? (a : Assembly) (ν : List Name) :
    (ν.filterMap (Name.form? a)).filterMap Line.defines? = ν.filter fun n => (n.form? a).isSome := by
  induction ν with
  | nil => rfl
  | cons n ν ih =>
    cases hform : n.form? a with
    | none =>
      rw [List.filterMap_cons_none hform, List.filter_cons_of_neg (by simp [hform]), ih]
    | some line =>
      rw [List.filterMap_cons_some hform, List.filterMap_cons_some (Name.defines?_of_form? hform).1,
        List.filter_cons_of_pos (by simp [hform]), ih]

/-- What declarations give a meaning to are the ids of the names that have forms. -/
theorem filterMap_resultId? : (declarationText a h).filterMap (Instruction.resultId? .named) =
    ((names h).filter fun n => (n.form? a).isSome).map (wordOf (names h)) := by
  rw [declarationText, ← filterMap_form? a (names h), List.filterMap_map, List.map_filterMap]
  refine List.filterMap_congr fun line hline => ?_
  obtain ⟨n, -, hform⟩ := List.mem_filterMap.mp hline
  rw [(Name.defines?_of_form? hform).1]
  exact Name.resultId?_of_form? hform (names h)

/-- The lines of a module before its functions. -/
def preambleLines (a : Assembly) (entries : List EntryPoint) (h : History) : List Line :=
  headerLines a (a.interface (exposed h)) entries ++ (decorated h).map (locationLine a) ++
    (names h).filterMap (Name.form? a)

/-- The lines of a module. -/
def moduleLines (a : Assembly) (entries : List EntryPoint) (h : History)
    (keys : List FunctionKey) : List Line :=
  preambleLines a entries h ++ keys.flatMap a.lines

/-- The lines before the declarations have no results. -/
theorem defines?_eq_none_of_mem {entries : List EntryPoint} {r : Word → Word} {i : Instruction}
    (hi : i ∈ (headerText a entries h).map (Instruction.mapIds r) ++
      ((annotationText a h).map (Instruction.mapIds r)).mergeSort instructionLe) :
    i.resultPosition? = none := by
  have hlines : ∀ lines : List Line, (∀ line ∈ lines, line.op.resultPosition? = none) →
      i ∈ (lines.map (Line.under (names h))).map (Instruction.mapIds r) → i.resultPosition? = none := by
    rintro lines hlines hmem
    obtain ⟨j, hj, rfl⟩ := List.mem_map.mp hmem
    obtain ⟨line, hline, rfl⟩ := List.mem_map.mp hj
    rw [Instruction.resultPosition?, Instruction.op?_mapIds, Line.op?_under, Option.bind_some]
    exact hlines line hline
  rcases List.mem_append.mp hi with hi | hi
  · refine hlines _ (fun line hline => ?_) hi
    rcases mem_headerLines.mp hline with hline | ⟨entry, -, hline⟩ | ⟨entry, -, hline⟩
    · rcases List.mem_pair.mp hline with rfl | rfl <;> rfl
    · obtain ⟨m, -, rfl⟩ := Option.map_eq_some_iff.mp hline
      rfl
    · obtain ⟨m, -, hline⟩ := Option.bind_eq_some_iff.mp hline
      obtain ⟨mode, -, rfl⟩ := Option.map_eq_some_iff.mp hline
      rfl
  · refine hlines _ (fun line hline => ?_) (List.mem_mergeSort.mp hi)
    obtain ⟨field, -, rfl⟩ := List.mem_map.mp hline
    rfl

/-- The declarations in their places are lines of names, under the numbers of the module. -/
theorem exists_of_mem_placed {entries : List EntryPoint} {d : Instruction}
    (hd : d ∈ placedText a entries h keys) : ∃ n ∈ names h, ∃ line, n.form? a = some line ∧
      d = line.under (names h) ∧
      renumbered a entries h keys d = line.instruction (numberOf a entries h keys) := by
  obtain ⟨line, hline, rfl⟩ := List.mem_map.mp ((Layout.placed_perm _ _ _).mem_iff.mp hd)
  obtain ⟨n, hn, hform⟩ := List.mem_filterMap.mp hline
  exact ⟨n, hn, line, hform, rfl, (Name.regular_of_form? hform).mapIds_eq _⟩

/-- The results of the declarations are the names that have forms. -/
theorem results_placed (entries : List EntryPoint) :
    (((placedText a entries h keys).map (renumbered a entries h keys)).filterMap
      Instruction.defines?).Perm
      (((names h).filter fun n => (n.form? a).isSome).map (numberOf a entries h keys)) := by
  have hperm := (Layout.placed_perm .named (declarationText a h) (idsOf (headerText a entries h ++
    functionText a h keys))).map (renumbered a entries h keys)
  refine (hperm.filterMap Instruction.defines?).trans (List.Perm.of_eq ?_)
  have hlines : ((names h).filterMap (Name.form? a)).map
      (fun line => renumbered a entries h keys (line.under (names h))) =
        ((names h).filterMap (Name.form? a)).map
          (Line.instruction (numberOf a entries h keys)) := by
    refine List.map_congr_left fun line hline => ?_
    obtain ⟨n, -, hform⟩ := List.mem_filterMap.mp hline
    exact (Name.regular_of_form? hform).mapIds_eq _
  rw [declarationText, List.map_map, ← filterMap_form? a (names h)]
  refine (congrArg (List.filterMap Instruction.defines?) hlines).trans ?_
  refine Line.Resultful.filterMap (fun line hline => ?_) _
  obtain ⟨n, -, hform⟩ := List.mem_filterMap.mp hline
  exact (Name.defines?_of_form? hform).2.1

/-- The results of functions are those of their lines. -/
theorem results_functions (entries : List EntryPoint) :
    ((functionText a h keys).map (renumbered a entries h keys)).filterMap Instruction.defines? =
      (keys.flatMap fun key => (a.lines key).filterMap Line.defines?).map
        (numberOf a entries h keys) := by
  rw [map_functionText, List.filterMap_flatMap, List.map_flatMap]
  refine List.flatMap_congr fun key _ => ?_
  exact Line.Resultful.filterMap (fun line hline => (Assembly.inBody_of_mem_lines hline).resultful) _

/-- A printed module defines the names that are to be defined. -/
theorem Printed.results_perm {entries : List EntryPoint} (hprinted : Printed a entries h keys m) :
    m.results.Perm ((definedNames a h keys).map (numberOf a entries h keys)) := by
  have hnone : ((headerText a entries h).map (renumbered a entries h keys) ++
      ((annotationText a h).map (renumbered a entries h keys)).mergeSort instructionLe).filterMap
        Instruction.defines? = [] := by
    refine List.filterMap_eq_nil_iff.mpr fun i hi => ?_
    rw [Instruction.defines?, defines?_eq_none_of_mem hi]
    rfl
  rw [Module.results, hprinted.instructions, List.filterMap_append, List.filterMap_append, hnone,
    List.nil_append, results_functions, definedNames, List.map_append]
  exact (results_placed entries).append_right _

/-- The names that a module defines have numbers. -/
theorem mem_distinctIds_of_defined (hn : n ∈ definedNames a h (ReadyEntry.order ready)) :
    wordOf (names h) n ∈ distinctIds a (firstAppearances requested) h (ReadyEntry.order ready) := by
  rcases List.mem_append.mp hn with hn | hn
  · obtain ⟨hn, hdeclared⟩ := List.mem_filter.mp hn
    exact Materialized.mem_distinctIds_of_declared hn hdeclared
  · obtain ⟨key, hkey, hn⟩ := List.mem_flatMap.mp hn
    obtain ⟨line, hline, hdefines⟩ := List.mem_filterMap.mp hn
    exact Materialized.mem_distinctIds_of_line hkey hline (Line.mem_names_of_defines? hdefines)

/-- The lines of a module are regular if the names of its entry points are without the zero character. -/
theorem moduleLines_regular (hnames : ∀ entry ∈ requested, ∀ method,
      a.method? entry.method = some method → NulFree method.fullName)
    (hline : line ∈ moduleLines a (firstAppearances requested) h keys) : line.Regular := by
  simp only [moduleLines, preambleLines, List.mem_append] at hline
  rcases hline with ((hline | hline) | hline) | hline
  · exact headerLines_regular (fun entry hentry => hnames entry (mem_firstAppearances.mp hentry)) line
      hline
  · obtain ⟨field, -, rfl⟩ := List.mem_map.mp hline
    exact locationLine_regular
  · obtain ⟨n, -, hform⟩ := List.mem_filterMap.mp hline
    exact Name.regular_of_form? hform
  · obtain ⟨key, -, hline⟩ := List.mem_flatMap.mp hline
    exact (Assembly.inBody_of_mem_lines hline).regular

theorem moduleText_eq (entries : List EntryPoint) : headerText a entries h ++ annotationText a h ++
    declarationText a h ++ functionText a h keys =
      (moduleLines a entries h keys).map (Line.under (names h)) := by
  rw [moduleLines, preambleLines, List.map_append, List.map_append, List.map_append,
    List.map_flatMap]
  rfl

/-- An instruction of a module is a line of it under the numbers of names. -/
theorem exists_line_of_mem (hnames : ∀ entry ∈ requested, ∀ method,
      a.method? entry.method = some method → NulFree method.fullName)
    (hprinted : Printed a (firstAppearances requested) h keys m) {i : Instruction}
    (hi : i ∈ m.instructions) : ∃ line ∈ moduleLines a (firstAppearances requested) h keys,
      i = line.instruction (numberOf a (firstAppearances requested) h keys) := by
  rw [hprinted.instructions] at hi
  obtain ⟨j, hj, rfl⟩ := exists_of_mem_printed hi
  rw [moduleText_eq] at hj
  obtain ⟨line, hline, rfl⟩ := List.mem_map.mp hj
  exact ⟨line, hline, (moduleLines_regular hnames hline).mapIds_eq _⟩

/-- The lines of the module's functions are among its instructions. -/
theorem mem_instructions_of_line (hprinted : Printed a (firstAppearances requested) h keys m)
    (hkey : key ∈ keys) (hline : line ∈ a.lines key) :
    line.instruction (numberOf a (firstAppearances requested) h keys) ∈ m.instructions := by
  rw [hprinted.instructions, map_functionText]
  exact List.mem_append_right _ (List.mem_flatMap.mpr ⟨key, hkey, List.mem_map_of_mem hline⟩)

theorem mem_instructions_of_preamble {i : Instruction} (hi : i ∈ m.preamble) :
    i ∈ m.instructions :=
  (List.takeWhile_prefix _).subset hi

namespace Materialized

variable (hm : Materialized a (firstAppearances requested) e ready h)

include hm

/-- No two declarations of a run have the same id. -/
theorem nodup_declared (hlegible : e.Legible ready) :
    ((declarationText a h).filterMap (Instruction.resultId? .named)).Nodup := by
  rw [filterMap_resultId?]
  refine (hm.account.nodup.filter _).map_on fun n hn n' hn' hsame => ?_
  exact ident_injective (hm.size_lt hlegible) (List.mem_filter.mp hn).1 (List.mem_filter.mp hn').1
    (congrArg Id.mk hsame)

/-- The names that a module defines have ids in its run. -/
theorem mem_names_of_defined (hn : n ∈ definedNames a h (ReadyEntry.order ready)) : n ∈ names h := by
  rcases List.mem_append.mp hn with hn | hn
  · exact (List.mem_filter.mp hn).1
  · obtain ⟨key, hkey, hn⟩ := List.mem_flatMap.mp hn
    obtain ⟨line, hline, hdefines⟩ := List.mem_filterMap.mp hn
    exact hm.mem_names_of_line hkey hline (Line.mem_names_of_defines? hdefines)

/-- The names that a module defines have different numbers. -/
theorem numberOf_injOn (hlegible : e.Legible ready) {n' : Name}
    (hn : n ∈ definedNames a h (ReadyEntry.order ready))
    (hn' : n' ∈ definedNames a h (ReadyEntry.order ready))
    (heq : numberOf a (firstAppearances requested) h (ReadyEntry.order ready) n =
      numberOf a (firstAppearances requested) h (ReadyEntry.order ready) n') : n = n' :=
  numberOf_injective (hm.size_lt hlegible) (hm.mem_names_of_defined hn) (hm.mem_names_of_defined hn')
    (mem_distinctIds_of_defined hn) (mem_distinctIds_of_defined hn') heq

/-- A module defines no id twice. -/
theorem nodup_results (hlegible : e.Legible ready)
    (hprinted : Printed a (firstAppearances requested) h (ReadyEntry.order ready) m) :
    m.results.Nodup := by
  refine hprinted.results_perm.nodup_iff.mpr (List.Nodup.map_on (fun n hn n' hn' heq => ?_) ?_)
  · exact hm.numberOf_injOn hlegible hn hn' heq
  · exact nodup_definedNames hm.account.nodup (hm.preorder_order hlegible).nodup fun key hkey =>
      hm.constructible_of_mem hkey

/-- The functions of entry points are among those of the module. -/
theorem ofMethod_mem_order (hlegible : e.Legible ready) {entry : EntryPoint}
    (hentry : entry ∈ firstAppearances requested) {method : MethodDef}
    (hmethod : a.method? entry.method = some method) :
    FunctionKey.ofMethod method ∈ ReadyEntry.order ready := by
  have hroot : FunctionKey.ofMethod method ∈ a.entryKeys requested :=
    List.mem_filterMap.mpr ⟨entry, hentry, by rw [hmethod]; rfl⟩
  exact ((hm.preorder_order hlegible).closed.1 _ hroot).resolve_left nofun

theorem own_mem_definedNames (hkey : key ∈ ReadyEntry.order ready) :
    Name.own key 0 ∈ definedNames a h (ReadyEntry.order ready) :=
  mem_definedNames_of_line hkey (own_mem_results (hm.constructible_of_mem hkey))

/-- What a function of the module refers to on a line is declared for the module, the result of an earlier
line, or a function of the module that is called. -/
theorem inScope_of_split (hlegible : e.Legible ready) (hkey : key ∈ ReadyEntry.order ready)
    {before after : List Line} (hlines : a.lines key = before ++ line :: after) (hn : n ∈ line.uses) :
    (n.form? a).isSome ∨ (∃ line' ∈ before, line'.defines? = some n ∧ line'.IsLocal) ∨
      (line.op = .functionCall ∧ line.operands[2]? = some (.name n) ∧
        ∃ callee ∈ ReadyEntry.order ready, n = .own callee 0) := by
  -- The first line of a function names types only; the others are scoped.
  obtain ⟨p, hp, rfl, hfirst, hscoped⟩ := exists_scoped_tail (hm.constructible_of_mem hkey)
  rw [hfirst] at hlines
  cases before with
  | nil =>
    obtain ⟨rfl, -⟩ := List.cons.inj hlines
    left
    rcases List.mem_pair.mp hn with rfl | rfl
    · exact Name.isSome_form?_value _
    · rfl
  | cons first before =>
    obtain ⟨-, htail⟩ := List.cons.inj hlines
    rw [htail] at hscoped
    rcases hscoped.inScope hn with hdeclared | hearlier | ⟨hop, hoperand, callee, hcallee, rfl⟩
    · exact .inl hdeclared
    · obtain ⟨line', hline', hdefines⟩ := List.mem_filterMap.mp hearlier
      have hlocal : line'.IsLocal := hscoped.isLocal (List.mem_append_left _ hline') hdefines
      exact .inr (.inl ⟨line', List.mem_cons_of_mem _ hline', hdefines, hlocal⟩)
    · have hcalled : callee ∈ a.callees p.key := by
        rw [Assembly.callees, hp]
        exact hcallee
      exact .inr (.inr ⟨hop, hoperand, callee, hm.callee_mem_order hlegible hkey hcalled, rfl⟩)

/-- What is on a line of a function of the module is defined. -/
theorem mem_definedNames_of_body (hlegible : e.Legible ready) (hkey : key ∈ ReadyEntry.order ready)
    (hline : line ∈ a.lines key) (hn : n ∈ line.names) :
    n ∈ definedNames a h (ReadyEntry.order ready) := by
  rcases line.defines_or_uses hn with hdefines | huses
  · exact mem_definedNames_of_line hkey (List.mem_filterMap.mpr ⟨line, hline, hdefines⟩)
  · obtain ⟨before, after, hlines⟩ := List.append_of_mem hline
    rcases hm.inScope_of_split hlegible hkey hlines huses with
      hdeclared | ⟨line', hline', hdefines, -⟩ | ⟨-, -, callee, hcallee, rfl⟩
    · exact mem_definedNames_of_declared (hm.mem_names_of_line hkey hline hn) hdeclared
    · have hmem : line' ∈ a.lines key := by
        rw [hlines]
        exact List.mem_append_left _ hline'
      exact mem_definedNames_of_line hkey (List.mem_filterMap.mpr ⟨line', hmem, hdefines⟩)
    · exact hm.own_mem_definedNames hcallee

/-- What is on a line of the header is a function of the module or a variable that is declared. -/
theorem names_of_header (hlegible : e.Legible ready)
    (hline : line ∈ headerLines a (a.interface (exposed h)) (firstAppearances requested))
    (hn : n ∈ line.names) : (∃ key ∈ ReadyEntry.order ready, n = .own key 0) ∨
      (n ∈ names h ∧ (n.form? a).isSome) := by
  rcases mem_headerLines.mp hline with hline | ⟨entry, hentry, hline⟩ | ⟨entry, hentry, hline⟩
  · rcases List.mem_pair.mp hline with rfl | rfl <;> cases hn
  · obtain ⟨method, hmethod, rfl⟩ := Option.map_eq_some_iff.mp hline
    rw [names_entryLine] at hn
    rcases List.mem_cons.mp hn with rfl | hn
    · exact .inl ⟨_, hm.ofMethod_mem_order hlegible hentry hmethod, rfl⟩
    · obtain ⟨field, hfield, rfl⟩ := List.mem_map.mp hn
      obtain ⟨k, hnoted⟩ := mem_exposed.mp (Assembly.mem_interface.mp hfield)
      exact .inr ⟨(hm.account.exposures k field hnoted).2.1, rfl⟩
  · obtain ⟨method, hmethod, hline⟩ := Option.bind_eq_some_iff.mp hline
    obtain ⟨mode, -, rfl⟩ := Option.map_eq_some_iff.mp hline
    exact .inl ⟨_, hm.ofMethod_mem_order hlegible hentry hmethod, mem_names_modeLine.mp hn⟩

/-- What the lines before the functions mention are functions of the module or declared. -/
theorem names_of_preamble (hlegible : e.Legible ready)
    (hline : line ∈ preambleLines a (firstAppearances requested) h) (hn : n ∈ line.names) :
    (∃ key ∈ ReadyEntry.order ready, n = .own key 0) ∨ (n ∈ names h ∧ (n.form? a).isSome) := by
  simp only [preambleLines, List.mem_append, or_assoc] at hline
  rcases hline with hline | hline | hline
  · exact hm.names_of_header hlegible hline hn
  · obtain ⟨field, hfield, rfl⟩ := List.mem_map.mp hline
    obtain ⟨k, hnoted⟩ := mem_decorated.mp hfield
    obtain rfl := mem_names_locationLine.mp hn
    exact .inr ⟨(hm.account.decorations k field hnoted).2, rfl⟩
  · obtain ⟨n', hn', hform⟩ := List.mem_filterMap.mp hline
    rcases (Name.mem_names_of_form? hform).mp hn with rfl | hpart
    · exact .inr ⟨hn', by rw [hform]; rfl⟩
    · exact .inr ⟨hm.account.grounded.parts_mem hn' n hpart, Name.isSome_of_mem_parts hpart⟩

/-- Everything that is on a line of the module is defined. -/
theorem mem_definedNames (hlegible : e.Legible ready)
    (hline : line ∈ moduleLines a (firstAppearances requested) h (ReadyEntry.order ready))
    (hn : n ∈ line.names) :
    n ∈ definedNames a h (ReadyEntry.order ready) := by
  rcases List.mem_append.mp hline with hline | hline
  · rcases hm.names_of_preamble hlegible hline hn with ⟨key, hkey, rfl⟩ | ⟨hmem, hdeclared⟩
    · exact hm.own_mem_definedNames hkey
    · exact mem_definedNames_of_declared hmem hdeclared
  · obtain ⟨key, hkey, hline⟩ := List.mem_flatMap.mp hline
    exact hm.mem_definedNames_of_body hlegible hkey hline hn

/-- The ids of a module are those of the names that it defines. -/
theorem mem_distinctIds_iff (hnames : ∀ entry ∈ requested, ∀ method,
      a.method? entry.method = some method → NulFree method.fullName) (hlegible : e.Legible ready)
    {w : Word} : w ∈ distinctIds a (firstAppearances requested) h (ReadyEntry.order ready) ↔
      ∃ n ∈ definedNames a h (ReadyEntry.order ready), w = wordOf (names h) n := by
  constructor
  · intro hw
    have hperm : (headerText a (firstAppearances requested) h ++
        placedText a (firstAppearances requested) h (ReadyEntry.order ready) ++
        functionText a h (ReadyEntry.order ready) ++ annotationText a h).Perm
          (headerText a (firstAppearances requested) h ++ annotationText a h ++ declarationText a h ++
            functionText a h (ReadyEntry.order ready)) := by
      have hplaced := ((Layout.placed_perm .named (declarationText a h) (idsOf (headerText a
        (firstAppearances requested) h ++ functionText a h (ReadyEntry.order ready)))).append_left
          (headerText a (firstAppearances requested) h)).append_right
            (functionText a h (ReadyEntry.order ready))
      refine (hplaced.append_right _).trans ?_
      simp only [List.append_assoc]
      refine List.Perm.append_left _ ?_
      rw [← List.append_assoc]
      exact List.perm_append_comm
    have hmem := (Layout.mem_idsOf_of_perm hperm).mp (mem_firstAppearances.mp hw)
    rw [moduleText_eq] at hmem
    obtain ⟨i, hi, hids⟩ := List.mem_flatMap.mp hmem
    obtain ⟨line, hline, rfl⟩ := List.mem_map.mp hi
    rw [(moduleLines_regular hnames hline).ids] at hids
    obtain ⟨n, hn, rfl⟩ := List.mem_map.mp hids
    exact ⟨n, hm.mem_definedNames hlegible hline hn, rfl⟩
  · rintro ⟨n, hn, rfl⟩
    exact mem_distinctIds_of_defined hn

/-- The results of a module are the numbers below its bound. -/
theorem mem_results_iff (hnames : ∀ entry ∈ requested, ∀ method,
      a.method? entry.method = some method → NulFree method.fullName) (hlimits : e.InFormat ready)
    (hprinted : Printed a (firstAppearances requested) h (ReadyEntry.order ready) m) (w : Word) :
    w ∈ m.results ↔ 1 ≤ w ∧ w < m.bound := by
  set distinct := distinctIds a (firstAppearances requested) h (ReadyEntry.order ready) with hdistinct
  have hnodup : distinct.Nodup := nodup_firstAppearances _
  have hlength : distinct.length ≤ (names h).length := by
    have hsub : distinct ⊆ (names h).map (wordOf (names h)) := by
      intro w hw
      obtain ⟨n, hn, rfl⟩ := (hm.mem_distinctIds_iff hnames hlimits.legible).mp hw
      exact List.mem_map_of_mem (hm.mem_names_of_defined hn)
    simpa using (hnodup.subperm hsub).length_le
  have hissued : (names h).length + 1 < UInt32.size := hm.account.issued ▸ hlimits.ids
  have himage : newId distinct '' {v | v ∈ distinct} = {v | 1 ≤ v ∧ v < m.bound} := by
    rw [Layout.image_newId hnodup, hprinted.bound]
    exact Layout.image_ofNat_Icc (by omega)
  have hiff : w ∈ newId distinct '' {v | v ∈ distinct} ↔ 1 ≤ w ∧ w < m.bound := by
    rw [himage]
    rfl
  rw [← hiff, hprinted.results_perm.mem_iff]
  constructor
  · intro hw
    obtain ⟨n, hn, rfl⟩ := List.mem_map.mp hw
    exact ⟨_, mem_distinctIds_of_defined hn, rfl⟩
  · rintro ⟨v, hv, rfl⟩
    obtain ⟨n, hn, rfl⟩ := (hm.mem_distinctIds_iff hnames hlimits.legible).mp hv
    exact List.mem_map_of_mem hn

/-- A function of the module is defined by an instruction that begins it. -/
theorem exists_definer_own
    (hprinted : Printed a (firstAppearances requested) h (ReadyEntry.order ready) m)
    (hkey : key ∈ ReadyEntry.order ready) : ∃ f ∈ m.instructions, f.op? = some .function ∧
      f.defines? = some (numberOf a (firstAppearances requested) h (ReadyEntry.order ready)
        (.own key 0)) := by
  obtain ⟨p, -, rfl, hlines, -⟩ := exists_scoped_tail (hm.constructible_of_mem hkey)
  have hline : p.functionLine a ∈ a.lines p.key := by
    rw [hlines]
    exact List.mem_cons_self
  exact ⟨_, mem_instructions_of_line hprinted hkey hline, Line.op?_instruction _ _, rfl⟩

/-- The declarations of a module are those of its run, in the order in which they are placed. -/
theorem declarations_eq
    (hprinted : Printed a (firstAppearances requested) h (ReadyEntry.order ready) m) :
    m.declarations = (placedText a (firstAppearances requested) h (ReadyEntry.order ready)).map
      (renumbered a (firstAppearances requested) h (ReadyEntry.order ready)) := by
  have hbefore : ((headerText a (firstAppearances requested) h).map
      (renumbered a (firstAppearances requested) h (ReadyEntry.order ready)) ++
      ((annotationText a h).map (renumbered a (firstAppearances requested) h
        (ReadyEntry.order ready))).mergeSort instructionLe).filter
          (fun i => i.IsDeclaration) = [] := by
    -- Nothing before the declarations has a result.
    refine List.filter_eq_nil_iff.mpr fun i hi hdeclaration => ?_
    have hnone := defines?_eq_none_of_mem hi
    have hsome := Instruction.resultPosition?_isSome (.inl (of_decide_eq_true hdeclaration))
    rw [hnone] at hsome
    exact Bool.false_ne_true hsome
  rw [Module.declarations, (hm.preamble_and_blocks hprinted).1, preambleText, List.filter_append,
    hbefore, List.nil_append]
  refine List.filter_eq_self.mpr fun i hi => ?_
  obtain ⟨d, hd, rfl⟩ := List.mem_map.mp hi
  obtain ⟨n, -, line, hform, -, heq⟩ := exists_of_mem_placed hd
  rw [heq, decide_eq_true_eq]
  exact Name.isDeclaration_of_form? hform _

/-- The line that declares a name is a declaration of the module. -/
theorem mem_declarations_of_form?
    (hprinted : Printed a (firstAppearances requested) h (ReadyEntry.order ready) m)
    (hn : n ∈ names h) (hform : n.form? a = some line) :
    line.instruction (numberOf a (firstAppearances requested) h (ReadyEntry.order ready)) ∈
      m.declarations := by
  rw [hm.declarations_eq hprinted]
  refine List.mem_map.mpr ⟨line.under (names h), (Layout.placed_perm _ _ _).mem_iff.mpr
    (List.mem_map_of_mem (List.mem_filterMap.mpr ⟨n, hn, hform⟩)), ?_⟩
  exact (Name.regular_of_form? hform).mapIds_eq _

/-- What is declared is defined by a declaration. -/
theorem exists_definer_declared
    (hprinted : Printed a (firstAppearances requested) h (ReadyEntry.order ready) m)
    (hn : n ∈ names h) (hdeclared : (n.form? a).isSome) : ∃ d ∈ m.declarations, d.IsDeclaration ∧
      d.defines? = some (numberOf a (firstAppearances requested) h (ReadyEntry.order ready) n) := by
  obtain ⟨line, hform⟩ := Option.isSome_iff_exists.mp hdeclared
  obtain ⟨hdefines, hresultful, -⟩ := Name.defines?_of_form? hform
  refine ⟨_, hm.mem_declarations_of_form? hprinted hn hform, Name.isDeclaration_of_form? hform _, ?_⟩
  rw [hresultful.defines?, hdefines]
  rfl

end Materialized

end Run

end ShaderLowering
