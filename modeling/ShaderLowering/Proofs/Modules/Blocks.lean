import ShaderLowering.Proofs.Modules.Text

/-!
# The function blocks of a module

A stream of instructions falls into what comes before the first function and one block for each function
(`Spirv.preamble`, `Spirv.blocks`).  In a printed module the blocks are the functions of its keys, as
lines under the numbers of names, and what comes before is the header, the annotations and the
declarations (`Materialized.preamble_and_blocks`).

Names that are on a line of the module have different numbers (`Materialized.numberOf_injective`).
-/

namespace ShaderLowering

open Spirv
open Layout (idsOf newId placed instructionLe)

namespace Spirv

/-- The instruction begins a function. -/
abbrev Instruction.Begins (i : Instruction) : Prop :=
  i.op? = some .function

/-- The function blocks of a stream: each goes from an instruction that begins a function to the next
one. -/
def blocks : List Instruction → List (List Instruction)
  | [] => []
  | i :: rest =>
    if i.Begins then (i :: rest.takeWhile (¬ Instruction.Begins ·)) :: blocks rest else blocks rest

/-- What comes before the first function of a stream. -/
def preamble (is : List Instruction) : List Instruction :=
  is.takeWhile (¬ Instruction.Begins ·)

namespace Module

/-- The function blocks of a module. -/
def blocks (m : Module) : List (List Instruction) :=
  Spirv.blocks m.instructions

/-- The instructions of a module before its functions. -/
def preamble (m : Module) : List Instruction :=
  Spirv.preamble m.instructions

end Module

variable {before is block : List Instruction} {bs : List (List Instruction)}

/-- A block begins a function and no other one. -/
def IsBlock (block : List Instruction) : Prop :=
  ∃ first rest, block = first :: rest ∧ first.Begins ∧ ∀ i ∈ rest, ¬i.Begins

theorem blocks_append (hbefore : ∀ i ∈ before, ¬i.Begins) :
    blocks (before ++ is) = blocks is := by
  induction before with
  | nil => rfl
  | cons i before ih =>
    rw [List.cons_append, blocks, if_neg (hbefore i List.mem_cons_self)]
    exact ih fun j hj => hbefore j (List.mem_cons_of_mem i hj)

/-- What follows a block begins with the next one, if there is one. -/
theorem takeWhile_flatten (hbefore : ∀ i ∈ before, ¬i.Begins) (hblocks : ∀ b ∈ bs, IsBlock b) :
    (before ++ bs.flatten).takeWhile (¬ Instruction.Begins ·) = before := by
  have hall : ∀ i ∈ before, decide (¬i.Begins) = true := fun i hi => by simpa using hbefore i hi
  rw [List.takeWhile_append_of_pos hall]
  cases bs with
  | nil => simp
  | cons b bs =>
    obtain ⟨first, rest, rfl, hfirst, -⟩ := hblocks b List.mem_cons_self
    simp [hfirst]

/-- The blocks of blocks one after another. -/
theorem blocks_flatten (hblocks : ∀ b ∈ bs, IsBlock b) : blocks bs.flatten = bs := by
  induction bs with
  | nil => rfl
  | cons b bs ih =>
    have hlater : ∀ b ∈ bs, IsBlock b := fun b hb => hblocks b (List.mem_cons_of_mem _ hb)
    obtain ⟨first, rest, rfl, hfirst, hrest⟩ := hblocks b List.mem_cons_self
    rw [List.flatten_cons, List.cons_append, blocks, if_pos hfirst, takeWhile_flatten hrest hlater,
      blocks_append hrest, ih hlater]

end Spirv

/-! ## The lines of functions -/

theorem filter_op_eq_nil {op : Op} {lines : List Line} (h : ∀ line ∈ lines, line.op ≠ op) :
    lines.filter (fun line => line.op = op) = [] :=
  List.filter_eq_nil_iff.mpr fun line hline => by simpa using h line hline

theorem filter_op_eq_self {op : Op} {lines : List Line} (h : ∀ line ∈ lines, line.op = op) :
    lines.filter (fun line => line.op = op) = lines :=
  List.filter_eq_self.mpr fun line hline => by simpa using h line hline

namespace Specialized

variable {a : Assembly} {p : Specialized} {line : Line}

theorem op_of_mem_parameterLines {ids : List TypeId} {position : Nat}
    (hline : line ∈ p.parameterLines a ids position) : line.op = .functionParameter := by
  obtain ⟨_, -, rfl⟩ := List.mem_map.mp hline
  rfl

theorem op_of_mem_slotLines {ids : List TypeId} {position : Nat}
    (hline : line ∈ p.slotLines a ids position) : line.op = .variable := by
  obtain ⟨_, -, rfl⟩ := List.mem_map.mp hline
  rfl

theorem op_of_mem_arrivalLines (hline : line ∈ p.arrivalLines) : line.op = .store := by
  obtain ⟨_, -, rfl⟩ := List.mem_map.mp hline
  rfl

theorem op_of_mem_operationLines {op : Il.Operation} {number : Nat}
    (hline : line ∈ p.operationLines a number op) :
    line.op ∈ [Op.load, .store, .functionCall, .ret, .returnValue] := by
  cases op with
  | call result wire slots =>
    rw [operationLines] at hline
    split at hline
    · simp only [callLines, List.mem_append, List.mem_cons, List.mem_map] at hline
      rcases hline with hline | rfl | ⟨slot, -, rfl⟩
      · obtain ⟨slot, n, rfl⟩ := mem_argumentLines hline
        simp [loadLine]
      · simp [callLine]
      · simp [storeLine]
    · cases hline
  | returnValue value =>
    cases value with
    | none => cases hline
    | some slot => rcases List.mem_pair.mp hline with rfl | rfl <;> simp [loadLine]
  | ret =>
    obtain rfl := List.mem_singleton.mp hline
    simp
  | loadUInt32 _ _ | loadFloat32 _ _ =>
    obtain rfl := List.mem_singleton.mp hline
    simp [storeLine]
  | load _ _ | loadField _ _ | storeField _ _ =>
    rcases List.mem_pair.mp hline with rfl | rfl <;> simp [loadLine, storeLine]

/-- The opcodes of the lines of code. -/
theorem op_of_mem_codeLines {code : List Il.Instruction} {number : Nat}
    (hline : line ∈ p.codeLines a number code) :
    line.op ∈ [Op.load, .store, .functionCall, .ret, .returnValue] := by
  obtain ⟨i, -, op, -, number, hline, -⟩ := exists_of_mem_codeLines hline
  exact op_of_mem_operationLines hline

/-- The lines of a function with an opcode, part by part. -/
theorem filter_lines (op : Op) : (p.lines a).filter (fun line => line.op = op) =
    [p.functionLine a].filter (fun line => line.op = op) ++
    (p.parameterLines a p.key.parameters 0).filter (fun line => line.op = op) ++
    [p.labelLine].filter (fun line => line.op = op) ++
    (p.slotLines a p.slotTypes 0).filter (fun line => line.op = op) ++
    p.arrivalLines.filter (fun line => line.op = op) ++
    (p.codeLines a p.reserved p.method.code.instructions).filter (fun line => line.op = op) ++
    ([⟨.functionEnd, []⟩] : List Line).filter (fun line => line.op = op) := by
  have hlines : p.lines a = [p.functionLine a] ++ p.parameterLines a p.key.parameters 0 ++
      [p.labelLine] ++ p.slotLines a p.slotTypes 0 ++ p.arrivalLines ++
      p.codeLines a p.reserved p.method.code.instructions ++ [⟨.functionEnd, []⟩] := rfl
  simp only [hlines, List.filter_append]

/-- After its first line a function begins no other one. -/
theorem op_ne_function_of_mem_tail (hline : line ∈ (p.lines a).tail) : line.op ≠ .function := by
  have htail : (p.lines a).tail = p.parameterLines a p.key.parameters 0 ++ [p.labelLine] ++
      p.slotLines a p.slotTypes 0 ++ p.arrivalLines ++
      p.codeLines a p.reserved p.method.code.instructions ++ [⟨.functionEnd, []⟩] := rfl
  simp only [htail, List.mem_append, List.mem_singleton] at hline
  rcases hline with ((((hline | rfl) | hline) | hline) | hline) | rfl
  · simp [op_of_mem_parameterLines hline]
  · simp [labelLine]
  · simp [op_of_mem_slotLines hline]
  · simp [op_of_mem_arrivalLines hline]
  · rintro heq
    have hcode := op_of_mem_codeLines hline
    rw [heq] at hcode
    revert hcode
    decide
  · simp

end Specialized

theorem Assembly.inBody_of_mem_lines {a : Assembly} {key : FunctionKey} {line : Line}
    (hline : line ∈ a.lines key) : line.InBody := by
  rw [lines] at hline
  split at hline
  · cases hline
  · exact Specialized.inBody_of_mem_lines line hline

/-! ## The functions of a module -/

section Run

variable {a : Assembly} {entries : List EntryPoint} {e : Emission} {ready : List ReadyEntry}
  {h : History} {keys : List FunctionKey} {key : FunctionKey} {n n' : Name} {line : Line}

/-- The functions of a module are the lines of its keys. -/
theorem map_functionText (a : Assembly) (entries : List EntryPoint) (h : History)
    (keys : List FunctionKey) : (functionText a h keys).map (renumbered a entries h keys) =
      keys.flatMap fun key => (a.lines key).map (Line.instruction (numberOf a entries h keys)) := by
  rw [functionText, List.map_flatMap]
  refine List.flatMap_congr fun key _ => ?_
  rw [List.map_map]
  exact List.map_congr_left fun line hline =>
    (Assembly.inBody_of_mem_lines hline).regular.mapIds_eq _

theorem isBlock_lines (hf : Constructible a (.function key)) (number : Name → Word) :
    IsBlock ((a.lines key).map (Line.instruction number)) := by
  obtain ⟨p, hp⟩ := hf.specialized
  rw [Assembly.lines, hp]
  refine ⟨(p.functionLine a).instruction number, (p.lines a).tail.map (Line.instruction number), rfl,
    Line.op?_instruction _ _, fun i hi => ?_⟩
  obtain ⟨line, hline, rfl⟩ := List.mem_map.mp hi
  rw [Instruction.Begins, Line.op?_instruction]
  exact fun heq => Specialized.op_ne_function_of_mem_tail hline (Option.some.inj heq)

/-- Nothing before the functions begins one. -/
theorem not_begins_of_mem_preamble {i : Instruction}
    (hi : i ∈ headerText a entries h ++ annotationText a h ++ declarationText a h) : ¬i.Begins := by
  have hlines : ∀ lines : List Line, (∀ line ∈ lines, line.op ≠ .function) →
      i ∈ lines.map (Line.under (names h)) → ¬i.Begins := by
    rintro lines hlines hmem
    obtain ⟨line, hline, rfl⟩ := List.mem_map.mp hmem
    rw [Instruction.Begins, Line.op?_under]
    exact fun heq => hlines line hline (Option.some.inj heq)
  simp only [List.mem_append] at hi
  rcases hi with (hi | hi) | hi
  · refine hlines _ (fun line hline => ?_) hi
    rcases mem_headerLines.mp hline with hline | ⟨entry, -, hline⟩ | ⟨entry, -, hline⟩
    · rcases List.mem_pair.mp hline with rfl | rfl <;> exact nofun
    · obtain ⟨m, -, rfl⟩ := Option.map_eq_some_iff.mp hline
      exact nofun
    · obtain ⟨m, -, hline⟩ := Option.bind_eq_some_iff.mp hline
      obtain ⟨mode, -, rfl⟩ := Option.map_eq_some_iff.mp hline
      exact nofun
  · refine hlines _ (fun line hline => ?_) hi
    obtain ⟨field, -, rfl⟩ := List.mem_map.mp hline
    exact nofun
  · refine hlines _ (fun line hline => ?_) hi
    obtain ⟨n, -, hform⟩ := List.mem_filterMap.mp hline
    intro heq
    have hop := Name.op_of_form? hform
    rw [heq] at hop
    revert hop
    decide

/-- What comes before the functions of a module: the header, the annotations and the declarations. -/
def preambleText (a : Assembly) (entries : List EntryPoint) (h : History)
    (keys : List FunctionKey) : List Instruction :=
  (headerText a entries h).map (renumbered a entries h keys) ++
    ((annotationText a h).map (renumbered a entries h keys)).mergeSort instructionLe ++
    (placedText a entries h keys).map (renumbered a entries h keys)

namespace Materialized

variable (hm : Materialized a entries e ready h)

include hm

/-- The keys of a module are those of functions of the run. -/
theorem exists_lowered (hkey : key ∈ ReadyEntry.order ready) :
    ∃ f, Lowered a (names h) f ∧ f.key = key := by
  obtain ⟨f, hf, rfl⟩ := List.mem_map.mp hkey
  exact ⟨f, Lowered.of_mem_callOrder hm.lowered hf, rfl⟩

theorem constructible_of_mem (hkey : key ∈ ReadyEntry.order ready) :
    Constructible a (.function key) := by
  obtain ⟨f, hf, rfl⟩ := hm.exists_lowered hkey
  exact hf.constructible

/-- What is on the lines of a module's functions has an id. -/
theorem mem_names_of_line (hkey : key ∈ ReadyEntry.order ready) (hline : line ∈ a.lines key)
    (hn : n ∈ line.names) : n ∈ names h := by
  obtain ⟨f, hf, rfl⟩ := hm.exists_lowered hkey
  obtain ⟨-, -, -, hknown, -, -, -⟩ := hf
  exact hknown line hline n hn

theorem size_lt (hlegible : e.Legible ready) : (names h).length < UInt32.size := by
  rw [← hm.account.issued]
  exact hlegible.ids

omit hm in
/-- What is on the lines of a module's functions has a number. -/
theorem mem_distinctIds_of_line (hkey : key ∈ keys) (hline : line ∈ a.lines key)
    (hn : n ∈ line.names) : wordOf (names h) n ∈ distinctIds a entries h keys := by
  have hids : wordOf (names h) n ∈ (line.under (names h)).ids := by
    rw [(Assembly.inBody_of_mem_lines hline).regular.ids]
    exact List.mem_map_of_mem hn
  have hmem : line.under (names h) ∈ functionText a h keys :=
    List.mem_flatMap.mpr ⟨key, hkey, List.mem_map_of_mem hline⟩
  refine mem_firstAppearances.mpr (List.mem_flatMap.mpr ⟨_, ?_, hids⟩)
  exact List.mem_append_left _ (List.mem_append_right _ hmem)

omit hm in
/-- What is declared has a number. -/
theorem mem_distinctIds_of_declared (hn : n ∈ names h) (hdeclared : (n.form? a).isSome) :
    wordOf (names h) n ∈ distinctIds a entries h keys := by
  obtain ⟨line, hline⟩ := Option.isSome_iff_exists.mp hdeclared
  have hids : wordOf (names h) n ∈ (line.under (names h)).ids := by
    rw [(Name.regular_of_form? hline).ids]
    exact List.mem_map_of_mem ((Name.mem_names_of_form? hline).mpr (.inl rfl))
  have hmem : line.under (names h) ∈ placedText a entries h keys :=
    (Layout.placed_perm _ _ _).mem_iff.mpr
      (List.mem_map_of_mem (List.mem_filterMap.mpr ⟨n, hn, hline⟩))
  refine mem_firstAppearances.mpr (List.mem_flatMap.mpr ⟨_, ?_, hids⟩)
  exact List.mem_append_left _ (List.mem_append_left _ (List.mem_append_right _ hmem))

omit hm in
/-- Names have different numbers if they have numbers at all. -/
theorem numberOf_injective (hsize : (names h).length < UInt32.size) (hn : n ∈ names h)
    (hn' : n' ∈ names h) (hshown : wordOf (names h) n ∈ distinctIds a entries h keys)
    (hshown' : wordOf (names h) n' ∈ distinctIds a entries h keys)
    (heq : numberOf a entries h keys n = numberOf a entries h keys n') : n = n' := by
  have hwords := Layout.newId_injOn (nodup_firstAppearances _) hshown hshown' heq
  exact ident_injective hsize hn hn' (congrArg Id.mk hwords)

omit hm in
theorem not_begins_of_mem_preambleText {i : Instruction} (hi : i ∈ preambleText a entries h keys) :
    ¬i.Begins := by
  have hmem : i ∈ (headerText a entries h ++ annotationText a h ++ declarationText a h).map
      (renumbered a entries h keys) := by
    simp only [preambleText, List.mem_append, List.mem_mergeSort, List.mem_map] at hi ⊢
    rcases hi with (⟨j, hj, rfl⟩ | ⟨j, hj, rfl⟩) | ⟨j, hj, rfl⟩
    · exact ⟨j, .inl (.inl hj), rfl⟩
    · exact ⟨j, .inl (.inr hj), rfl⟩
    · exact ⟨j, .inr ((Layout.placed_perm _ _ _).mem_iff.mp hj), rfl⟩
  obtain ⟨j, hj, rfl⟩ := List.mem_map.mp hmem
  have hbefore : ¬j.Begins := not_begins_of_mem_preamble hj
  exact hbefore

/-- A module falls into what comes before its functions and one block for each of its keys. -/
theorem preamble_and_blocks {m : Module}
    (hprinted : Printed a entries h (ReadyEntry.order ready) m) :
    m.preamble = preambleText a entries h (ReadyEntry.order ready) ∧
      m.blocks = (ReadyEntry.order ready).map fun key => (a.lines key).map
        (Line.instruction (numberOf a entries h (ReadyEntry.order ready))) := by
  -- The functions come last, and each begins with an instruction that begins a function.
  have hsplit : m.instructions = preambleText a entries h (ReadyEntry.order ready) ++
      ((ReadyEntry.order ready).map fun key => (a.lines key).map
        (Line.instruction (numberOf a entries h (ReadyEntry.order ready)))).flatten := by
    rw [hprinted.instructions, map_functionText, List.flatMap_def, preambleText]
  have hbefore : ∀ i ∈ preambleText a entries h (ReadyEntry.order ready), ¬i.Begins := fun i hi =>
    not_begins_of_mem_preambleText hi
  have hblocks : ∀ b ∈ (ReadyEntry.order ready).map fun key => (a.lines key).map
      (Line.instruction (numberOf a entries h (ReadyEntry.order ready))), IsBlock b := by
    intro b hb
    obtain ⟨key, hkey, rfl⟩ := List.mem_map.mp hb
    exact isBlock_lines (hm.constructible_of_mem hkey) _
  constructor
  · rw [Module.preamble, hsplit]
    exact takeWhile_flatten hbefore hblocks
  · rw [Module.blocks, hsplit, blocks_append hbefore, blocks_flatten hblocks]

end Materialized

end Run

end ShaderLowering
