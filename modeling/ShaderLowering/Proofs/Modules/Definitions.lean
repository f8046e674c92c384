import ShaderLowering.Proofs.Layout.Topological
import ShaderLowering.Proofs.Modules.Results

/-!
# The ids of a module are well defined

The results of a module are the numbers below the bound, each once.  Declarations are placed after those
that they refer to, because names are given ids after their parts (`Materialized.declared_before`); and a
function refers to what it has defined before, to declarations, and by calls to other functions.  What is
local to a function is an own name of it, so nothing else mentions it.
-/

namespace ShaderLowering

open Spirv

/-! ## What the statement speaks of -/

namespace Spirv

/-- The function that an instruction refers to. -/
def Instruction.function? (i : Instruction) : Option Word :=
  match i.op? with
  | some .entryPoint => i.operands[1]?
  | some .executionMode => i.operands[0]?
  | some .functionCall => i.operands[2]?
  | _ => none

/-- The ids of a module are well defined: its results are the numbers below the bound, each once, and it
holds no other ids; a declaration refers to earlier ones; what an instruction of a function refers to is a
declaration, local to the function and defined before, or the callee of a call; what is local to a function
is not mentioned elsewhere; and entry points, execution modes and calls refer to functions. -/
structure IdsWellDefined (m : Module) : Prop where
  once : m.results.Nodup
  range : ∀ w, w ∈ m.results ↔ 1 ≤ w ∧ w < m.bound
  ids : ∀ i ∈ m.instructions, ∀ w ∈ i.ids, w ∈ m.results
  declarations : ∀ l d l', m.declarations = l ++ d :: l' → ∀ w ∈ d.uses,
    w ∈ l.filterMap Instruction.defines?
  blocks : ∀ block ∈ m.blocks, ∀ l i l', block = l ++ i :: l' → ∀ w ∈ i.uses,
    ∀ d ∈ m.instructions, d.defines? = some w → (d.IsDeclaration ∧ d ∈ m.declarations) ∨
      (d.IsLocal ∧ d ∈ l) ∨
      (d.op? = some .function ∧ i.op? = some .functionCall ∧ i.operands[2]? = some w)
  locals : ∀ d ∈ m.instructions, d.IsLocal → ∀ w, d.defines? = some w → ∃ block ∈ m.blocks,
    d ∈ block ∧ (∀ i ∈ m.preamble, w ∉ i.uses) ∧
      ∀ block' ∈ m.blocks, ∀ i ∈ block', w ∈ i.uses → block' = block
  functions : ∀ i ∈ m.instructions, ∀ w, i.function? = some w →
    ∃ f ∈ m.instructions, f.op? = some .function ∧ f.defines? = some w

end Spirv

/-- A part of a name gets its id before the name. -/
theorem Grounded.idxOf_lt {a : Assembly} {ν : List Name} {n p : Name} (hν : Grounded a ν)
    (hn : n ∈ ν) (hp : p ∈ n.parts a) : ν.idxOf p < ν.idxOf n := by
  have hlt : ν.idxOf n < ν.length := List.idxOf_lt_length_of_mem hn
  have hbegins : ν.take (ν.idxOf n) ++ [n] <+: ν := by
    have htake := List.take_append_getElem hlt
    rw [List.getElem_idxOf hlt] at htake
    rw [htake]
    exact List.take_prefix _ _
  exact (List.mem_take_iff_idxOf_lt (hν.parts_mem hn p hp)).mp (hν _ n hbegins p hp)

section Run

variable {a : Assembly} {requested : List EntryPoint} {e : Emission} {ready : List ReadyEntry}
  {h : History} {keys : List FunctionKey} {key : FunctionKey} {n : Name} {line : Line} {m : Module}

/-- A line that calls has the callee at its place. -/
theorem exists_callee_of_call {key : FunctionKey} {p : Specialized} (hp : a.specialized? key = some p)
    (hcode : ∀ i ∈ p.method.code.instructions, ∃ op, i.decode = .ok op ∧ p.Refers a op)
    (hline : line ∈ a.lines key) (hop : line.op = .functionCall) :
    ∃ callee ∈ a.callees key, line.operands[2]? = some (.name (.own callee 0)) := by
  have hmem : line ∈ (p.codeLines a p.reserved p.method.code.instructions).filter
      fun line => line.op = .functionCall := by
    rw [← Specialized.filter_call_lines, ← Assembly.lines_of_specialized hp]
    exact List.mem_filter.mpr ⟨hline, decide_eq_true hop⟩
  have hcalls := ((List.forall₂_and_left (p := fun site => site ∈ _) _ _).mpr
    ⟨fun _ hsite => hsite, Specialized.calls_codeLines p.reserved hcode⟩).flip
  obtain ⟨site, -, hsite, callee, number, hcallee, rfl⟩ := forall₂_mem_left hcalls hmem
  refine ⟨callee, ?_, rfl⟩
  rw [Assembly.callees_eq hp]
  exact List.mem_filterMap.mpr ⟨site, hsite, hcallee⟩

/-- An instruction before the functions is a line under the numbers of names. -/
theorem exists_line_of_mem_preamble (hnames : ∀ entry ∈ requested, ∀ method,
      a.method? entry.method = some method → NulFree method.fullName)
    (hpreamble : m.preamble = preambleText a (firstAppearances requested) h keys) {i : Instruction}
    (hi : i ∈ m.preamble) : ∃ line ∈ preambleLines a (firstAppearances requested) h,
      i = line.instruction (numberOf a (firstAppearances requested) h keys) := by
  have hlines : headerText a (firstAppearances requested) h ++ annotationText a h ++
      declarationText a h = (preambleLines a (firstAppearances requested) h).map
        (Line.under (names h)) := by
    rw [preambleLines, List.map_append, List.map_append]
    rfl
  -- The layout sorts the annotations and places the declarations anew, and otherwise only renames.
  have hmem : ∃ j ∈ headerText a (firstAppearances requested) h ++ annotationText a h ++
      declarationText a h, i = renumbered a (firstAppearances requested) h keys j := by
    rw [hpreamble, preambleText] at hi
    simp only [List.mem_append, List.mem_mergeSort, List.mem_map] at hi ⊢
    rcases hi with (⟨j, hj, rfl⟩ | ⟨j, hj, rfl⟩) | ⟨j, hj, rfl⟩
    · exact ⟨j, .inl (.inl hj), rfl⟩
    · exact ⟨j, .inl (.inr hj), rfl⟩
    · exact ⟨j, .inr ((Layout.placed_perm _ _ _).mem_iff.mp hj), rfl⟩
  obtain ⟨j, hj, rfl⟩ := hmem
  rw [hlines] at hj
  obtain ⟨line, hline, rfl⟩ := List.mem_map.mp hj
  have hmodule : line ∈ moduleLines a (firstAppearances requested) h keys :=
    List.mem_append_left _ hline
  exact ⟨line, hline, (moduleLines_regular hnames hmodule).mapIds_eq _⟩

namespace Materialized

variable (hm : Materialized a (firstAppearances requested) e ready h)

include hm

/-- A declaration refers to earlier ones. -/
theorem declared_before (hlegible : e.Legible ready)
    (hprinted : Printed a (firstAppearances requested) h (ReadyEntry.order ready) m)
    {l l' : List Instruction} {d : Instruction} (hsplit : m.declarations = l ++ d :: l') {w : Word}
    (hw : w ∈ d.uses) : w ∈ l.filterMap Instruction.defines? := by
  have hsize := hm.size_lt hlegible
  have hgrounded := hm.account.grounded
  rw [hm.declarations_eq hprinted] at hsplit
  obtain ⟨before, rest, hplaced, rfl, hrest⟩ := List.map_eq_append_iff.mp hsplit
  obtain ⟨d, after, rfl, rfl, rfl⟩ := List.map_eq_cons_iff.mp hrest
  have hmem : ∀ {d'}, d' ∈ before ++ d :: after → d' ∈ placedText a (firstAppearances requested) h
      (ReadyEntry.order ready) := fun hd' => hplaced ▸ hd'
  obtain ⟨n, hn, line, hform, rfl, heq⟩ := exists_of_mem_placed (hmem (by simp : d ∈ _))
  obtain ⟨-, -, hparts⟩ := Name.defines?_of_form? hform
  rw [heq] at hw
  obtain ⟨part, huses, rfl⟩ := (Name.regular_of_form? hform).exists_of_mem_uses _ hw
  have hpart : part ∈ n.parts a := hparts part huses
  have hpartmem : part ∈ names h := hgrounded.parts_mem hn part hpart
  have hlower : ∀ {n' part' : Name}, n' ∈ names h → part' ∈ n'.parts a →
      (wordOf (names h) part').toNat < (wordOf (names h) n').toNat := by
    intro n' part' hn' hpart'
    rw [toNat_ident hsize (hgrounded.parts_mem hn' part' hpart'), toNat_ident hsize hn']
    exact Nat.succ_lt_succ (hgrounded.idxOf_lt hn' hpart')
  have hrank : ∀ d ∈ declarationText a h, ∃ v, d.resultId? .named = some v ∧
      ∀ w ∈ d.ids, w = v ∨ w.toNat < v.toNat := by
    intro d hd
    obtain ⟨line', hline', rfl⟩ := List.mem_map.mp hd
    obtain ⟨n', hn', hform'⟩ := List.mem_filterMap.mp hline'
    refine ⟨_, Name.resultId?_of_form? hform' (names h), fun w hw => ?_⟩
    rw [(Name.regular_of_form? hform').ids] at hw
    obtain ⟨n₁, hn₁, rfl⟩ := List.mem_map.mp hw
    rcases (Name.mem_names_of_form? hform').mp hn₁ with rfl | hpart'
    · exact .inl rfl
    · exact .inr (hlower hn' hpart')
  have hids : wordOf (names h) part ∈ (line.under (names h)).ids := by
    rw [(Name.regular_of_form? hform).ids]
    exact List.mem_map_of_mem ((Name.mem_names_of_form? hform).mpr (.inr hpart))
  have hother : (line.under (names h)).resultId? .named ≠ some (wordOf (names h) part) := by
    rw [Name.resultId?_of_form? hform (names h)]
    intro hsame
    have hlt := hlower hn hpart
    rw [Option.some.inj hsame] at hlt
    exact Nat.lt_irrefl _ hlt
  have hdeclared : wordOf (names h) part ∈ (declarationText a h).filterMap
      (Instruction.resultId? .named) := by
    rw [filterMap_resultId?]
    exact List.mem_map_of_mem (List.mem_filter.mpr ⟨hpartmem, Name.isSome_of_mem_parts hpart⟩)
  obtain ⟨d', hd', hresult⟩ := List.mem_filterMap.mp
    (Layout.mem_before_of_placed (hm.nodup_declared hlegible) hrank hplaced hids hother hdeclared)
  obtain ⟨n', hn', line', hform', rfl, heq'⟩ := exists_of_mem_placed (hmem
    (List.mem_append_left _ hd'))
  rw [Name.resultId?_of_form? hform' (names h)] at hresult
  obtain rfl : n' = part := ident_injective hsize hn' hpartmem
    (congrArg Id.mk (Option.some.inj hresult))
  obtain ⟨hdefines', hresultful', -⟩ := Name.defines?_of_form? hform'
  refine List.mem_filterMap.mpr ⟨_, List.mem_map_of_mem hd', ?_⟩
  rw [heq', hresultful'.defines?, hdefines']
  rfl

/-- The functions that the lines of a module refer to are functions of the module. -/
theorem exists_key_of_function? (hlegible : e.Legible ready)
    (hline : line ∈ moduleLines a (firstAppearances requested) h (ReadyEntry.order ready))
    (number : Name → Word) {w : Word} (hw : (line.instruction number).function? = some w) :
    ∃ key ∈ ReadyEntry.order ready, w = number (.own key 0) := by
  -- These are the three opcodes with an operand that is always a function.
  have hop : line.op ∈ [Op.entryPoint, .executionMode, .functionCall] := by
    rw [Instruction.function?, Line.op?_instruction] at hw
    split at hw
    · next hop => simp [Option.some.inj hop]
    · next hop => simp [Option.some.inj hop]
    · next hop => simp [Option.some.inj hop]
    · cases hw
  simp only [moduleLines, preambleLines, List.mem_append] at hline
  rcases hline with ((hline | hline) | hline) | hline
  · rcases mem_headerLines.mp hline with hline | ⟨entry, hentry, hline⟩ | ⟨entry, hentry, hline⟩
    · rcases List.mem_pair.mp hline with rfl | rfl <;> simp at hop
    · obtain ⟨method, hmethod, rfl⟩ := Option.map_eq_some_iff.mp hline
      exact ⟨_, hm.ofMethod_mem_order hlegible hentry hmethod, (Option.some.inj hw).symm⟩
    · obtain ⟨method, hmethod, hline⟩ := Option.bind_eq_some_iff.mp hline
      obtain ⟨mode, -, rfl⟩ := Option.map_eq_some_iff.mp hline
      exact ⟨_, hm.ofMethod_mem_order hlegible hentry hmethod, (Option.some.inj hw).symm⟩
  · obtain ⟨field, -, rfl⟩ := List.mem_map.mp hline
    simp [locationLine] at hop
  · obtain ⟨n, -, hform⟩ := List.mem_filterMap.mp hline
    have hother : ∀ op ∈ [Op.entryPoint, .executionMode, .functionCall], op ∉ [Op.typeVoid, .typeInt,
        .typeFloat, .typeVector, .typeStruct, .typePointer, .typeFunction, .constant, .variable] := by
      decide
    exact absurd (Name.op_of_form? hform) (hother line.op hop)
  · obtain ⟨key, hkey, hline⟩ := List.mem_flatMap.mp hline
    have hcall : line.op = .functionCall := by
      have hbody := Assembly.inBody_of_mem_lines hline
      cases hbody <;> simp_all
    obtain ⟨p, hp, hcode⟩ := (hm.constructible_of_mem hkey).sound
    obtain ⟨callee, hcallee, hoperand⟩ := exists_callee_of_call hp hcode hline hcall
    refine ⟨callee, hm.callee_mem_order hlegible hkey hcallee, ?_⟩
    rw [Instruction.function?, Line.op?_instruction, hcall] at hw
    simpa [Line.instruction, hoperand] using hw.symm

/-- What is local to a function of the module is an own name of it other than that of the function. -/
theorem exists_own_of_isLocal (hkey : key ∈ ReadyEntry.order ready) (hline : line ∈ a.lines key)
    (hlocal : line.IsLocal) (hdefines : line.defines? = some n) :
    ∃ number, n = .own key (number + 1) := by
  obtain ⟨p, -, rfl, hlines, hscoped⟩ := exists_scoped_tail (hm.constructible_of_mem hkey)
  rw [hlines] at hline
  rcases List.mem_cons.mp hline with rfl | hline
  · rcases hlocal with hop | ⟨hop, -⟩ <;> simp [Specialized.functionLine] at hop
  · have hmem : n ∈ (p.lines a).tail.filterMap Line.defines? :=
      List.mem_filterMap.mpr ⟨line, hline, hdefines⟩
    rw [hscoped.filterMap_defines?] at hmem
    obtain ⟨number, hnumber, rfl⟩ := List.mem_map.mp hmem
    rw [List.mem_range'_1] at hnumber
    obtain ⟨number, rfl⟩ := Nat.exists_eq_add_of_le' hnumber.1
    exact ⟨number, rfl⟩

/-- What is local is on a line of a function. -/
theorem exists_line_of_isLocal
    (hprinted : Printed a (firstAppearances requested) h (ReadyEntry.order ready) m)
    {d : Instruction} (hd : d ∈ m.instructions) (hlocal : d.IsLocal) {w : Word}
    (hw : d.defines? = some w) : ∃ key ∈ ReadyEntry.order ready, ∃ line ∈ a.lines key, ∃ number,
      d = line.instruction (numberOf a (firstAppearances requested) h (ReadyEntry.order ready)) ∧
      line.IsLocal ∧ line.defines? = some (.own key (number + 1)) ∧
      w = numberOf a (firstAppearances requested) h (ReadyEntry.order ready)
        (.own key (number + 1)) := by
  rw [hprinted.instructions, List.append_assoc, map_functionText] at hd
  rcases List.mem_append.mp hd with hd | hd
  -- What comes before the declarations has no results, and what is declared is not local.
  · have hnone := defines?_eq_none_of_mem hd
    have hsome := Instruction.resultPosition?_isSome (.inr hlocal)
    rw [hnone] at hsome
    exact absurd hsome Bool.false_ne_true
  · rcases List.mem_append.mp hd with hd | hd
    · obtain ⟨declared, hdeclared, rfl⟩ := List.mem_map.mp hd
      obtain ⟨n, -, line, hform, -, heq⟩ := exists_of_mem_placed hdeclared
      rw [heq] at hlocal
      exact absurd hlocal (Name.isDeclaration_of_form? hform _).not_isLocal
    · obtain ⟨key, hkey, hd⟩ := List.mem_flatMap.mp hd
      obtain ⟨line, hline, rfl⟩ := List.mem_map.mp hd
      have hbody := Assembly.inBody_of_mem_lines hline
      have hlocal' := hbody.isLocal hlocal
      rw [hbody.resultful.defines?] at hw
      obtain ⟨n, hdefines, rfl⟩ := Option.map_eq_some_iff.mp hw
      obtain ⟨number, rfl⟩ := hm.exists_own_of_isLocal hkey hline hlocal' hdefines
      exact ⟨key, hkey, line, hline, number, rfl, hlocal', hdefines, rfl⟩

/-- What comes before the functions does not mention what is local to one. -/
theorem not_mem_uses_of_preamble (hnames : ∀ entry ∈ requested, ∀ method,
      a.method? entry.method = some method → NulFree method.fullName) (hlegible : e.Legible ready)
    (hprinted : Printed a (firstAppearances requested) h (ReadyEntry.order ready) m)
    {i : Instruction} (hi : i ∈ m.preamble) {number : Nat}
    (hdefined : .own key (number + 1) ∈ definedNames a h (ReadyEntry.order ready)) :
    numberOf a (firstAppearances requested) h (ReadyEntry.order ready) (.own key (number + 1)) ∉
      i.uses := by
  intro hw
  obtain ⟨line, hline, rfl⟩ := exists_line_of_mem_preamble hnames (hm.preamble_and_blocks hprinted).1 hi
  have hmodule : line ∈ moduleLines a (firstAppearances requested) h (ReadyEntry.order ready) :=
    List.mem_append_left _ hline
  obtain ⟨n, hn, heq⟩ := (moduleLines_regular hnames hmodule).exists_of_mem_uses _ hw
  have hname := Line.mem_names_of_mem_uses hn
  obtain rfl := hm.numberOf_injOn hlegible hdefined (hm.mem_definedNames hlegible hmodule hname) heq
  rcases hm.names_of_preamble hlegible hline hname with ⟨key', -, hown⟩ | ⟨-, hdeclared⟩
  · exact absurd (Name.own.inj hown).2 (Nat.succ_ne_zero number)
  · exact Bool.false_ne_true hdeclared

/-- A function does not mention what is local to another one. -/
theorem eq_of_mem_uses (hlegible : e.Legible ready) {key' : FunctionKey}
    (hkey : key' ∈ ReadyEntry.order ready) (hline : line ∈ a.lines key') {number : Nat}
    (hn : .own key (number + 1) ∈ line.uses) : key' = key := by
  obtain ⟨before, after, hlines⟩ := List.append_of_mem hline
  rcases hm.inScope_of_split hlegible hkey hlines hn with
    hdeclared | ⟨line', hline', hdefines, hlocal⟩ | ⟨-, -, callee, -, hown⟩
  · exact absurd hdeclared Bool.false_ne_true
  · have hin : line' ∈ a.lines key' := by
      rw [hlines]
      exact List.mem_append_left _ hline'
    obtain ⟨number', hown⟩ := hm.exists_own_of_isLocal hkey hin hlocal hdefines
    exact (Name.own.inj hown).1.symm
  · exact absurd (Name.own.inj hown).2 (Nat.succ_ne_zero number)

/-- A block of the module is the lines of a function under the numbers of names. -/
theorem exists_key_of_mem_blocks
    (hprinted : Printed a (firstAppearances requested) h (ReadyEntry.order ready) m)
    {block : List Instruction} (hblock : block ∈ m.blocks) : ∃ key ∈ ReadyEntry.order ready,
      block = (a.lines key).map (Line.instruction
        (numberOf a (firstAppearances requested) h (ReadyEntry.order ready))) := by
  rw [(hm.preamble_and_blocks hprinted).2] at hblock
  obtain ⟨key, hkey, rfl⟩ := List.mem_map.mp hblock
  exact ⟨key, hkey, rfl⟩

/-- Results are distinct, so whatever defines an id is the instruction that does. -/
theorem eq_of_defines? (hlegible : e.Legible ready)
    (hprinted : Printed a (firstAppearances requested) h (ReadyEntry.order ready) m)
    {d d' : Instruction} (hd : d ∈ m.instructions) (hd' : d' ∈ m.instructions) {w : Word}
    (hw : d.defines? = some w) (hw' : d'.defines? = some w) : d = d' :=
  eq_of_nodup_filterMap (hm.nodup_results hlegible hprinted) hd hd' hw hw'

/-- What an instruction of a block uses was declared, or defined before it in the block, or is the function
that it calls. -/
theorem definer_of_mem_uses (hlegible : e.Legible ready)
    (hprinted : Printed a (firstAppearances requested) h (ReadyEntry.order ready) m)
    {block l l' : List Instruction} {i d : Instruction} (hblock : block ∈ m.blocks)
    (hsplit : block = l ++ i :: l') {w : Word} (hw : w ∈ i.uses) (hd : d ∈ m.instructions)
    (hdefines : d.defines? = some w) : (d.IsDeclaration ∧ d ∈ m.declarations) ∨
      (d.IsLocal ∧ d ∈ l) ∨
      (d.op? = some .function ∧ i.op? = some .functionCall ∧ i.operands[2]? = some w) := by
  obtain ⟨key, hkey, rfl⟩ := hm.exists_key_of_mem_blocks hprinted hblock
  set number := numberOf a (firstAppearances requested) h (ReadyEntry.order ready)
  obtain ⟨before, rest, hlines, rfl, hrest⟩ := List.map_eq_append_iff.mp hsplit
  obtain ⟨line, after, rfl, rfl, rfl⟩ := List.map_eq_cons_iff.mp hrest
  have hline : line ∈ a.lines key := by
    rw [hlines]
    simp
  obtain ⟨n, hn, rfl⟩ : ∃ n ∈ line.uses, w = number n :=
    (Assembly.inBody_of_mem_lines hline).regular.exists_of_mem_uses _ hw
  rcases hm.inScope_of_split hlegible hkey hlines hn with
    hdeclared | ⟨line', hline', hdefines', hlocal⟩ | ⟨hop, hoperand, callee, hcallee, rfl⟩
  · left
    have hknown := hm.mem_names_of_line hkey hline (Line.mem_names_of_mem_uses hn)
    obtain ⟨d', hd', hdeclaration, hresult⟩ := hm.exists_definer_declared hprinted hknown hdeclared
    have hin : d' ∈ m.instructions := mem_instructions_of_preamble (List.mem_filter.mp hd').1
    obtain rfl := hm.eq_of_defines? hlegible hprinted hd hin hdefines hresult
    exact ⟨hdeclaration, hd'⟩
  · refine .inr (.inl ?_)
    have hin : line' ∈ a.lines key := by
      rw [hlines]
      exact List.mem_append_left _ hline'
    have hresult : (line'.instruction number).defines? = some (number n) := by
      rw [(Assembly.inBody_of_mem_lines hin).resultful.defines?, hdefines']
      rfl
    obtain rfl := hm.eq_of_defines? hlegible hprinted hd (mem_instructions_of_line hprinted hkey hin)
      hdefines hresult
    exact ⟨hlocal.instruction _, List.mem_map_of_mem hline'⟩
  · refine .inr (.inr ⟨?_, ?_, ?_⟩)
    · obtain ⟨f, hf, hopf, hresult⟩ := hm.exists_definer_own hprinted hcallee
      obtain rfl := hm.eq_of_defines? hlegible hprinted hd hf hdefines hresult
      exact hopf
    · rw [Line.op?_instruction, hop]
    · simp [Line.instruction, hoperand]

/-- What is local to a block is mentioned in no other, and not before the blocks. -/
theorem exists_block_of_isLocal (hnames : ∀ entry ∈ requested, ∀ method,
      a.method? entry.method = some method → NulFree method.fullName) (hlegible : e.Legible ready)
    (hprinted : Printed a (firstAppearances requested) h (ReadyEntry.order ready) m)
    {d : Instruction} (hd : d ∈ m.instructions) (hlocal : d.IsLocal) {w : Word}
    (hw : d.defines? = some w) : ∃ block ∈ m.blocks, d ∈ block ∧ (∀ i ∈ m.preamble, w ∉ i.uses) ∧
      ∀ block' ∈ m.blocks, ∀ i ∈ block', w ∈ i.uses → block' = block := by
  obtain ⟨key, hkey, line, hline, own, rfl, hlocal', hdefines, rfl⟩ :=
    hm.exists_line_of_isLocal hprinted hd hlocal hw
  have hdefined : .own key (own + 1) ∈ definedNames a h (ReadyEntry.order ready) :=
    mem_definedNames_of_line hkey (List.mem_filterMap.mpr ⟨line, hline, hdefines⟩)
  refine ⟨_, ?_, List.mem_map_of_mem hline, ?_, ?_⟩
  · rw [(hm.preamble_and_blocks hprinted).2]
    exact List.mem_map_of_mem hkey
  · exact fun i hi => hm.not_mem_uses_of_preamble hnames hlegible hprinted hi hdefined
  · intro block' hmem i hi huse
    obtain ⟨key', hkey', rfl⟩ := hm.exists_key_of_mem_blocks hprinted hmem
    obtain ⟨line', hline', rfl⟩ := List.mem_map.mp hi
    obtain ⟨n, hn, heq⟩ := (Assembly.inBody_of_mem_lines hline').regular.exists_of_mem_uses _ huse
    have hshown := hm.mem_definedNames_of_body hlegible hkey' hline' (Line.mem_names_of_mem_uses hn)
    obtain rfl := hm.numberOf_injOn hlegible hdefined hshown heq
    rw [hm.eq_of_mem_uses hlegible hkey' hline' hn]

end Materialized

end Run

/-! ## The statement -/

/-- The ids of a module are well defined if the names of its entry points are without the zero
character. -/
theorem compiled_idsWellDefined {a : Assembly} {requested : List EntryPoint} {config : Config}
    {e : Emission} {ready : List ReadyEntry} {m : Module}
    (hcompiled : Compiled a requested config e ready m) (hlimits : e.InFormat ready)
    (hnames : ∀ entry ∈ requested, ∀ method, a.method? entry.method = some method →
      NulFree method.fullName) : IdsWellDefined m := by
  obtain ⟨⟨h, hm⟩, rfl⟩ := hcompiled.materialized (Nat.lt_of_succ_lt hlimits.ids)
  have hlegible := hlimits.legible
  have hprinted := hm.printed hlegible.toInstructionsFit config
  set m := e.module config ready with hmodule
  constructor
  case once => exact hm.nodup_results hlegible hprinted
  case range => exact hm.mem_results_iff hnames hlimits hprinted
  case ids =>
    intro i hi w hw
    obtain ⟨line, hline, rfl⟩ := exists_line_of_mem hnames hprinted hi
    set number := numberOf a (firstAppearances requested) h (ReadyEntry.order ready)
    have hids : (line.instruction number).ids = line.names.map number :=
      (moduleLines_regular hnames hline).ids_instruction _
    rw [hids] at hw
    obtain ⟨n, hn, rfl⟩ := List.mem_map.mp hw
    rw [hprinted.results_perm.mem_iff]
    exact List.mem_map_of_mem (hm.mem_definedNames hlegible hline hn)
  case declarations =>
    exact fun l d l' hsplit w hw => hm.declared_before hlegible hprinted hsplit hw
  case blocks =>
    exact fun block hblock l i l' hsplit w hw d hd hdefines =>
      hm.definer_of_mem_uses hlegible hprinted hblock hsplit hw hd hdefines
  case locals =>
    exact fun d hd hlocal w hw => hm.exists_block_of_isLocal hnames hlegible hprinted hd hlocal hw
  case functions =>
    intro i hi w hw
    obtain ⟨line, hline, rfl⟩ := exists_line_of_mem hnames hprinted hi
    obtain ⟨key, hkey, rfl⟩ := hm.exists_key_of_function? hlegible hline _ hw
    exact hm.exists_definer_own hprinted hkey

/-- The ids of the module with the two functions are well defined. -/
theorem painter_idsWellDefined : painterSession.shared.InFormat painterReady ∧
    (∀ entry ∈ painterEntries, ∀ method, painter.method? entry.method = some method →
      NulFree method.fullName) ∧ IdsWellDefined painterModule :=
  ⟨painter_inFormat, painter_nulFree,
    compiled_idsWellDefined painter_compiled painter_inFormat painter_nulFree⟩

end ShaderLowering
