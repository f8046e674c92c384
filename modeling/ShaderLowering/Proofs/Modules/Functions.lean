import ShaderLowering.Proofs.Layout.Preorder
import ShaderLowering.Proofs.Modules.Blocks

/-!
# The functions of a module are those that the entry points reach

The blocks of a module are, one to one and in depth-first preorder of the calls, the functions of the keys
that the entry points reach through the calls in the code (`Materialized.preorder_order`).  Each call
instruction of a block comes from a call in the code, in order, and fits the block of the key that this
call is specialized to (`FitsBlock`): it names that block, passes an argument for each of its parameters
and has its result type.
-/

namespace ShaderLowering

open Relation (ReflTransGen)
open Spirv

/-! ## What the statement speaks of -/

/-- The calls in code, in their order: the method that each names and the slots that it passes. -/
def Il.callsIn (code : List Il.Instruction) : List (UInt64 × List Il.Slot) :=
  code.filterMap fun i => match i.decode with
    | .ok (.call _ wire arguments) => some (wire, arguments)
    | _ => none

/-- The keys of entry points, in their order and without repetitions. -/
def Assembly.entryKeys (a : Assembly) (requested : List EntryPoint) : List FunctionKey :=
  (firstAppearances requested).filterMap fun entry =>
    (a.method? entry.method).map FunctionKey.ofMethod

namespace Spirv

/-- The instructions with an opcode, in their order. -/
def withOp (op : Op) (is : List Instruction) : List Instruction :=
  is.filter fun i => i.op? = some op

/-- The id of the function of a block. -/
def blockId? (block : List Instruction) : Option Word :=
  block.head?.bind fun first => first.operands[1]?

/-- The result type of the function of a block. -/
def blockResult? (block : List Instruction) : Option Word :=
  block.head?.bind fun first => first.operands[0]?

/-- A call instruction is one of the function of a block. -/
structure FitsBlock (call : Instruction) (block : List Instruction) : Prop where
  callee : call.operands[2]? = blockId? block
  result : call.operands[0]? = blockResult? block
  arguments : call.operands.length = 3 + (withOp .functionParameter block).length

end Spirv

/-- The keys that a function calls are those that the calls in its code are specialized to. -/
theorem Assembly.callees_eq {a : Assembly} {key : FunctionKey} {p : Specialized}
    (hp : a.specialized? key = some p) : a.callees key =
      (Il.callsIn p.method.code.instructions).filterMap fun site => p.calleeKey? a site.1 site.2 := by
  rw [callees, hp]
  dsimp only
  induction p.method.code.instructions with
  | nil => rfl
  | cons i rest ih =>
    rw [Specialized.calledBy, Il.callsIn, List.filterMap_cons]
    cases hdecode : i.decode with
    | error cause => exact ih
    | ok op =>
      cases op with
      | call result wire slots =>
        dsimp only
        rw [List.filterMap_cons, ih, Specialized.called]
        cases p.calleeKey? a wire slots <;> rfl
      | _ => exact ih

/-! ## Lines with an opcode -/

section Lines

variable {a : Assembly} {p : Specialized} {op : Op}

theorem withOp_append (is js : List Instruction) :
    withOp op (is ++ js) = withOp op is ++ withOp op js :=
  List.filter_append _ _

theorem withOp_map (op : Op) (number : Name → Word) (lines : List Line) :
    withOp op (lines.map (Line.instruction number)) =
      (lines.filter fun line => line.op = op).map (Line.instruction number) := by
  rw [withOp, List.filter_map]
  congr 1
  exact List.filter_congr fun line _ => by simp

namespace Specialized

/-- The calls in the code of a function are its lines that call, in order. -/
theorem calls_codeLines {code : List Il.Instruction} (number : Nat)
    (hcode : ∀ i ∈ code, ∃ op, i.decode = .ok op ∧ p.Refers a op) :
    List.Forall₂ (fun site line => ∃ callee number', p.calleeKey? a site.1 site.2 = some callee ∧
        line = p.callLine a callee site.2.length number')
      (Il.callsIn code) ((p.codeLines a number code).filter fun line => line.op = .functionCall) := by
  induction code generalizing number with
  | nil => exact .nil
  | cons i rest ih =>
    obtain ⟨op, hdecode, hrefers⟩ := hcode i List.mem_cons_self
    have hrest := ih (number + op.taken) fun j hj => hcode j (List.mem_cons_of_mem i hj)
    rw [codeLines, Il.callsIn, List.filterMap_cons, hdecode]
    dsimp only
    rw [List.filter_append]
    -- Of all operations only a call has a line that calls, between its loads and its store.
    cases op with
    | call result wire slots =>
      obtain ⟨callee, hcallee⟩ := Option.isSome_iff_exists.mp hrefers.1
      have hloads : (p.argumentLines a slots number).filter
          (fun line => line.op = .functionCall) = [] := by
        refine List.filter_eq_nil_iff.mpr fun line hline => ?_
        obtain ⟨slot, n, rfl⟩ := mem_argumentLines hline
        exact Bool.false_ne_true
      have hstore : (result.toList.map fun slot =>
          p.storeLine slot (p.own (number + slots.length))).filter
            (fun line => line.op = .functionCall) = [] := by
        cases result <;> rfl
      have hlines : (p.operationLines a number (.call result wire slots)).filter
          (fun line => line.op = .functionCall) = [p.callLine a callee slots.length number] := by
        rw [operationLines, hcallee]
        change (callLines a p number result callee slots).filter _ = _
        rw [callLines, List.filter_append, hloads, List.nil_append, List.filter_cons_of_pos rfl, hstore]
      rw [hlines]
      exact .cons ⟨callee, number, hcallee, rfl⟩ hrest
    | returnValue value => cases value <;> exact hrest
    | _ => exact hrest

/-- The lines of a function that call are those of its code. -/
theorem filter_call_lines : (p.lines a).filter (fun line => line.op = .functionCall) =
    (p.codeLines a p.reserved p.method.code.instructions).filter
      fun line => line.op = .functionCall := by
  have hparameters : ∀ line ∈ p.parameterLines a p.key.parameters 0, line.op ≠ .functionCall :=
    fun line hline => by simp [op_of_mem_parameterLines hline]
  have hslots : ∀ line ∈ p.slotLines a p.slotTypes 0, line.op ≠ .functionCall :=
    fun line hline => by simp [op_of_mem_slotLines hline]
  have harrivals : ∀ line ∈ p.arrivalLines, line.op ≠ .functionCall :=
    fun line hline => by simp [op_of_mem_arrivalLines hline]
  rw [filter_lines, filter_op_eq_nil hparameters, filter_op_eq_nil hslots, filter_op_eq_nil harrivals]
  simp [functionLine, labelLine]

/-- A function has a parameter line for each type of its key. -/
theorem filter_parameter_lines : (p.lines a).filter (fun line => line.op = .functionParameter) =
    p.parameterLines a p.key.parameters 0 := by
  have hparameters : ∀ line ∈ p.parameterLines a p.key.parameters 0,
      line.op = .functionParameter := fun line hline => op_of_mem_parameterLines hline
  have hslots : ∀ line ∈ p.slotLines a p.slotTypes 0, line.op ≠ .functionParameter :=
    fun line hline => by simp [op_of_mem_slotLines hline]
  have harrivals : ∀ line ∈ p.arrivalLines, line.op ≠ .functionParameter :=
    fun line hline => by simp [op_of_mem_arrivalLines hline]
  have hcode : ∀ line ∈ p.codeLines a p.reserved p.method.code.instructions,
      line.op ≠ .functionParameter := by
    intro line hline heq
    have hmem := op_of_mem_codeLines hline
    rw [heq] at hmem
    revert hmem
    decide
  rw [filter_lines, filter_op_eq_self hparameters, filter_op_eq_nil hslots,
    filter_op_eq_nil harrivals, filter_op_eq_nil hcode]
  simp [functionLine, labelLine]

end Specialized

end Lines

/-! ## The functions of a run -/

section Run

variable {a : Assembly} {requested : List EntryPoint} {e : Emission} {ready : List ReadyEntry}
  {h : History} {key callee : FunctionKey}

/-- The lines of a function key are those of its method. -/
theorem Assembly.lines_of_specialized {p : Specialized} (hp : a.specialized? key = some p) :
    a.lines key = p.lines a := by
  rw [lines, hp]

/-- Where a function has a value for each member of a list, its values are in the order of the
members. -/
theorem forall₂_filterMap {α β : Type} {F : α → Option β} {xs : List α}
    (hsome : ∀ x ∈ xs, ∃ y, F x = some y) :
    List.Forall₂ (fun x y => F x = some y) xs (xs.filterMap F) := by
  induction xs with
  | nil => exact .nil
  | cons x xs ih =>
    obtain ⟨y, hy⟩ := hsome x List.mem_cons_self
    rw [List.filterMap_cons_some hy]
    exact .cons hy (ih fun x' hx' => hsome x' (List.mem_cons_of_mem x hx'))

/-- The entry points in a header are those of its lines. -/
theorem withOp_headerText {entries : List EntryPoint} :
    withOp .entryPoint (headerText a entries h) =
      (entries.filterMap (EntryPoint.line? a (a.interface (exposed h)))).map
        (Line.under (names h)) := by
  have hmodes : (entries.filterMap (EntryPoint.modeLine? a)).filter
      (fun line => line.op = .entryPoint) = [] := by
    refine filter_op_eq_nil fun line hline => ?_
    obtain ⟨entry, -, hline⟩ := List.mem_filterMap.mp hline
    obtain ⟨m, -, hline⟩ := Option.bind_eq_some_iff.mp hline
    obtain ⟨mode, -, rfl⟩ := Option.map_eq_some_iff.mp hline
    exact nofun
  have hentries : (entries.filterMap (EntryPoint.line? a (a.interface (exposed h)))).filter
      (fun line => line.op = .entryPoint) =
        entries.filterMap (EntryPoint.line? a (a.interface (exposed h))) := by
    refine filter_op_eq_self fun line hline => ?_
    obtain ⟨entry, -, hline⟩ := List.mem_filterMap.mp hline
    obtain ⟨m, -, rfl⟩ := Option.map_eq_some_iff.mp hline
    rfl
  have hlines : (headerLines a (a.interface (exposed h)) entries).filter
      (fun line => line.op = .entryPoint) =
        entries.filterMap (EntryPoint.line? a (a.interface (exposed h))) := by
    rw [headerLines, List.filter_append, List.filter_append, hmodes, hentries, List.append_nil]
    rfl
  rw [headerText, withOp, List.filter_map, ← hlines]
  congr 1
  exact List.filter_congr fun line _ => by simp

/-- A function has its id on its first line. -/
theorem exists_line_own (hf : Constructible a (.function key)) :
    ∃ line ∈ a.lines key, Name.own key 0 ∈ line.names := by
  obtain ⟨p, hp⟩ := hf.specialized
  have hkey : p.key = key := (Assembly.specialized?_eq_some.mp hp).1
  rw [Assembly.lines_of_specialized hp]
  refine ⟨p.functionLine a, p.functionLine_mem a, ?_⟩
  simp [Specialized.functionLine, Line.names, Operand.name?, Specialized.own, hkey]

namespace Materialized

variable (hm : Materialized a (firstAppearances requested) e ready h)

include hm

/-- The functions of the entry points are those of their keys. -/
theorem map_key_eq : (ready.map ReadyEntry.function).map Function.key = a.entryKeys requested := by
  obtain ⟨function?, hready, hlowered⟩ := hm.ready
  rw [Assembly.entryKeys]
  have hall := mapM_eq_ok.mp hready
  clear hready hm
  generalize firstAppearances requested = entries at hall ⊢
  induction hall with
  | nil => rfl
  | @cons entry r entries ready hentry _ ih =>
    obtain ⟨m, f, mode, hfound, hf, -, rfl⟩ := ReadyEntry.ofEntry_eq_ok.mp hentry
    have hkey : (a.method? entry.method).map FunctionKey.ofMethod = some f.key := by
      rw [hfound, (hlowered _ f hf).1]
      rfl
    simp only [List.map_cons, ih, List.filterMap_cons, hkey]

/-- The keys of a module are in depth-first preorder of calls. -/
theorem preorder_order (hlegible : e.Legible ready) :
    Preorder a.callees [] (a.entryKeys requested) (ReadyEntry.order ready) := by
  have hsize := hm.size_lt hlegible
  have hids : ∀ f g, Lowered a (names h) f → Lowered a (names h) g →
      (f.id = g.id ↔ f.key = g.key) := by
    refine fun f g hf hg => ⟨fun hid => ?_, fun hkey => ?_⟩
    · rw [hf.eq_of_id hsize hg hid]
    · rw [hf.eq_of_key hg hkey]
  have hnext : ∀ f, Lowered a (names h) f → f.callees.map Function.key = a.callees f.key := by
    rintro f hf
    obtain ⟨-, -, -, -, -, hcallees, -⟩ := hf
    exact hcallees
  have hnone : ∀ f ∈ ([] : List Function), Lowered a (names h) f := nofun
  have hwalk := Layout.preorder_callOrderFrom (fun _ hf _ hg => hf.callee hg) hids hnext hnone
    hm.lowered
  rw [hm.map_key_eq] at hwalk
  exact hwalk

theorem callee_mem_order (hlegible : e.Legible ready) (hkey : key ∈ ReadyEntry.order ready)
    (hcallee : callee ∈ a.callees key) : callee ∈ ReadyEntry.order ready :=
  ((hm.preorder_order hlegible).closed.2 key hkey callee hcallee).resolve_left nofun

/-- The number of a function is that of no other one. -/
theorem numberOf_own_injective (hlegible : e.Legible ready) {key' : FunctionKey}
    (hkey : key ∈ ReadyEntry.order ready) (hkey' : key' ∈ ReadyEntry.order ready)
    (heq : numberOf a (firstAppearances requested) h (ReadyEntry.order ready) (.own key 0) =
      numberOf a (firstAppearances requested) h (ReadyEntry.order ready) (.own key' 0)) :
    key = key' := by
  obtain ⟨line, hline, hn⟩ := exists_line_own (hm.constructible_of_mem hkey)
  obtain ⟨line', hline', hn'⟩ := exists_line_own (hm.constructible_of_mem hkey')
  have hname := numberOf_injective (hm.size_lt hlegible) (hm.mem_names_of_line hkey hline hn)
    (hm.mem_names_of_line hkey' hline' hn') (mem_distinctIds_of_line hkey hline hn)
    (mem_distinctIds_of_line hkey' hline' hn') heq
  exact (Name.own.inj hname).1

/-- The declarations of entry points in a module are their lines. -/
theorem withOp_preamble {m : Module} (hprinted : Printed a (firstAppearances requested) h
      (ReadyEntry.order ready) m) :
    withOp .entryPoint m.preamble =
      (((firstAppearances requested).filterMap (EntryPoint.line? a (a.interface (exposed h)))).map
        (Line.under (names h))).map
          (renumbered a (firstAppearances requested) h (ReadyEntry.order ready)) := by
  set r := renumbered a (firstAppearances requested) h (ReadyEntry.order ready)
  -- Renaming keeps opcodes, so it does not matter whether entry points are picked before or after it.
  have hop : ∀ is : List Instruction,
      withOp .entryPoint (is.map r) = (withOp .entryPoint is).map r := fun is => List.filter_map
  have hnone : ∀ is : List Instruction, (∀ i ∈ is, i.op? ≠ some .entryPoint) →
      withOp .entryPoint is = [] := fun is his =>
    List.filter_eq_nil_iff.mpr fun i hi => by simpa using his i hi
  have hannotations : ∀ i ∈ ((annotationText a h).map r).mergeSort Layout.instructionLe,
      i.op? ≠ some .entryPoint := by
    intro i hi
    obtain ⟨j, hj, rfl⟩ := List.mem_map.mp (List.mem_mergeSort.mp hi)
    obtain ⟨line, hline, rfl⟩ := List.mem_map.mp hj
    obtain ⟨field, -, rfl⟩ := List.mem_map.mp hline
    exact nofun
  have hdeclarations : ∀ i ∈ (placedText a (firstAppearances requested) h
      (ReadyEntry.order ready)).map r, i.op? ≠ some .entryPoint := by
    intro i hi
    obtain ⟨j, hj, rfl⟩ := List.mem_map.mp hi
    obtain ⟨line, hline, rfl⟩ := List.mem_map.mp ((Layout.placed_perm _ _ _).mem_iff.mp hj)
    obtain ⟨n, -, hform⟩ := List.mem_filterMap.mp hline
    intro heq
    have hmem := Name.op_of_form? hform
    rw [Option.some.inj ((Line.op?_under (names h) line).symm.trans heq)] at hmem
    revert hmem
    decide
  rw [(hm.preamble_and_blocks hprinted).1, preambleText, withOp_append, withOp_append,
    hnone _ hannotations, hnone _ hdeclarations, List.append_nil, List.append_nil, hop,
    withOp_headerText]

/-- Each entry point has a line that declares it. -/
theorem forall₂_line : List.Forall₂
    (fun entry line => ∃ method, a.method? entry.method = some method ∧
      line = entryLine entry.model (FunctionKey.ofMethod method) method.fullName
        (a.interface (exposed h)))
    (firstAppearances requested)
    ((firstAppearances requested).filterMap (EntryPoint.line? a (a.interface (exposed h)))) := by
  obtain ⟨function?, hready, -⟩ := hm.ready
  refine (forall₂_filterMap fun entry hentry => ?_).imp fun entry line hline => ?_
  · obtain ⟨r, -, hof⟩ := forall₂_mem_left (mapM_eq_ok.mp hready) hentry
    obtain ⟨method, f, mode, hmethod, -, -, rfl⟩ := ReadyEntry.ofEntry_eq_ok.mp hof
    exact ⟨_, by rw [EntryPoint.line?, hmethod]; rfl⟩
  · obtain ⟨method, hmethod, rfl⟩ := Option.map_eq_some_iff.mp hline
    exact ⟨method, hmethod, rfl⟩

/-- The entry points of a module name the functions of their methods. -/
theorem entryPoints_name {m : Module} (hprinted : Printed a (firstAppearances requested) h
      (ReadyEntry.order ready) m) :
    List.Forall₂ (fun entry i => ∃ method, a.method? entry.method = some method ∧
        i.operands[1]? = some (numberOf a (firstAppearances requested) h (ReadyEntry.order ready)
          (.own (FunctionKey.ofMethod method) 0)))
      (firstAppearances requested) (withOp .entryPoint m.preamble) := by
  rw [hm.withOp_preamble hprinted, List.forall₂_map_right_iff, List.forall₂_map_right_iff]
  refine hm.forall₂_line.imp fun entry line hline => ?_
  obtain ⟨method, hmethod, rfl⟩ := hline
  refine ⟨method, hmethod, ?_⟩
  -- The function of an entry point is an id, whatever the name of the entry point.
  have hposition : 1 ∈ ((entryLine entry.model (FunctionKey.ofMethod method) method.fullName
      (a.interface (exposed h))).under (names h)).idPositions := by
    rw [Instruction.idPositions, Instruction.nominalIdPositions, Line.op?_under]
    refine List.mem_filter.mpr ⟨List.mem_cons_self, ?_⟩
    simp [entryLine, Line.under]
  rw [renumbered, Instruction.getElem?_operands_mapIds]
  simp only [hposition, if_true]
  rfl

end Materialized

end Run

/-- The function of a block has the id and the result type that its key says, and a parameter for each
type of the key. -/
theorem block_head {a : Assembly} {key : FunctionKey} (hf : Constructible a (.function key))
    (number : Name → Word) :
    blockId? ((a.lines key).map (Line.instruction number)) = some (number (.own key 0)) ∧
      blockResult? ((a.lines key).map (Line.instruction number)) =
        some (number (.value (a.returnValue key))) ∧
      (withOp .functionParameter ((a.lines key).map (Line.instruction number))).length =
        key.parameters.length := by
  obtain ⟨p, hp⟩ := hf.specialized
  obtain ⟨rfl, -, -⟩ := Assembly.specialized?_eq_some.mp hp
  rw [Assembly.lines_of_specialized hp]
  refine ⟨rfl, ?_, ?_⟩
  · rw [Assembly.returnValue, hp]
    rfl
  · rw [withOp_map, Specialized.filter_parameter_lines, List.length_map, Specialized.parameterLines,
      List.length_map, List.length_zipIdx]

/-- The function blocks of a module are, one to one and in depth-first preorder, the function keys that
the entry points reach through the calls in the code; and what calls a function in a block is, one to one
and in order, the calls in the code, and fits the block of the key that the call is specialized to. -/
structure FunctionBlocks (a : Assembly) (requested : List EntryPoint) (m : Module)
    (keys : List FunctionKey) (number : FunctionKey → Word) : Prop where
  preorder : Preorder a.callees [] (a.entryKeys requested) keys
  nodup : keys.Nodup
  reached : ∀ key, key ∈ keys ↔ ∃ root ∈ a.entryKeys requested,
    ReflTransGen (fun caller callee => callee ∈ a.callees caller) root key
  distinct : ∀ key ∈ keys, ∀ key' ∈ keys, number key = number key' → key = key'
  blocks : List.Forall₂ (fun key block => blockId? block = some (number key)) keys m.blocks
  entries : List.Forall₂ (fun entry i => ∃ method, a.method? entry.method = some method ∧
      i.operands[1]? = some (number (FunctionKey.ofMethod method)))
    (firstAppearances requested) (withOp .entryPoint m.preamble)
  calls : ∀ key block, (key, block) ∈ keys.zip m.blocks → ∃ p, a.specialized? key = some p ∧
    List.Forall₂ (fun site call => ∃ callee target, p.calleeKey? a site.1 site.2 = some callee ∧
        (callee, target) ∈ keys.zip m.blocks ∧ FitsBlock call target)
      (Il.callsIn p.method.code.instructions) (withOp .functionCall block)

section Run

variable {a : Assembly} {requested : List EntryPoint} {e : Emission} {ready : List ReadyEntry}
  {h : History} {m : Module}

/-- The block of a key are its lines under the numbers of the module. -/
theorem Materialized.mem_zip_blocks_iff (hm : Materialized a (firstAppearances requested) e ready h)
    (hprinted : Printed a (firstAppearances requested) h (ReadyEntry.order ready) m)
    {key : FunctionKey} {block : List Instruction} :
    (key, block) ∈ (ReadyEntry.order ready).zip m.blocks ↔ key ∈ ReadyEntry.order ready ∧
      block = (a.lines key).map (Line.instruction
        (numberOf a (firstAppearances requested) h (ReadyEntry.order ready))) := by
  rw [(hm.preamble_and_blocks hprinted).2, ← List.map_prod_left_eq_zip, List.mem_map]
  constructor
  · rintro ⟨key', hkey', heq⟩
    obtain ⟨rfl, rfl⟩ := Prod.mk.inj heq
    exact ⟨hkey', rfl⟩
  · rintro ⟨hkey, rfl⟩
    exact ⟨key, hkey, rfl⟩

/-- The functions of a printed module are exactly those that the entry points reach. -/
theorem Materialized.functionBlocks (hm : Materialized a (firstAppearances requested) e ready h)
    (hlegible : e.Legible ready)
    (hprinted : Printed a (firstAppearances requested) h (ReadyEntry.order ready) m) :
    FunctionBlocks a requested m (ReadyEntry.order ready) fun key =>
      numberOf a (firstAppearances requested) h (ReadyEntry.order ready) (.own key 0) := by
  have hpreorder := hm.preorder_order hlegible
  constructor
  case preorder => exact hpreorder
  case nodup => exact hpreorder.nodup
  case reached => exact fun key => hpreorder.mem_iff
  case entries => exact hm.entryPoints_name hprinted
  case distinct =>
    exact fun key hkey key' hkey' heq => hm.numberOf_own_injective hlegible hkey hkey' heq
  case blocks =>
    rw [(hm.preamble_and_blocks hprinted).2, List.forall₂_map_right_iff, List.forall₂_same]
    exact fun key hkey => (block_head (hm.constructible_of_mem hkey) _).1
  case calls =>
    intro key block hmem
    obtain ⟨hkey, rfl⟩ := (hm.mem_zip_blocks_iff hprinted).mp hmem
    obtain ⟨p, hp, hcode⟩ := (hm.constructible_of_mem hkey).sound
    refine ⟨p, hp, ?_⟩
    rw [Assembly.lines_of_specialized hp, withOp_map, Specialized.filter_call_lines,
      List.forall₂_map_right_iff]
    refine ((List.forall₂_and_left (p := fun site => site ∈ _) _ _).mpr ⟨fun _ hsite => hsite,
      Specialized.calls_codeLines p.reserved hcode⟩).imp ?_
    rintro site line ⟨hsite, callee, number, hcallee, rfl⟩
    have hcalled : callee ∈ a.callees key := by
      rw [Assembly.callees_eq hp]
      exact List.mem_filterMap.mpr ⟨site, hsite, hcallee⟩
    have hmem := hm.callee_mem_order hlegible hkey hcalled
    obtain ⟨hid, hresult, hparameters⟩ := block_head (hm.constructible_of_mem hmem)
      (numberOf a (firstAppearances requested) h (ReadyEntry.order ready))
    obtain ⟨target, -, -, hslots, hlength⟩ := Specialized.target?_of_calleeKey? hcallee
    refine ⟨callee, _, hcallee, (hm.mem_zip_blocks_iff hprinted).mpr ⟨hmem, rfl⟩, hid.symm,
      hresult.symm, ?_⟩
    have hcall : ∀ name, ((p.callLine a callee site.2.length number).instruction name).operands.length =
        site.2.length + 3 := fun name => by simp [Specialized.callLine, Line.instruction]
    rw [hcall, hparameters, hlength, hslots, Nat.add_comm]

end Run

/-- The functions of a module are exactly those that the entry points reach, as long as the ids that have
been issued fit a word: functions are told apart by their ids. -/
theorem compiled_functionBlocks {a : Assembly} {requested : List EntryPoint} {config : Config}
    {e : Emission} {ready : List ReadyEntry} {m : Module}
    (hcompiled : Compiled a requested config e ready m) (hfits : e.InstructionsFit ready) :
    e.ids.issued < UInt32.size → ∃ keys number, FunctionBlocks a requested m keys number := by
  intro hids
  obtain ⟨⟨h, hm⟩, rfl⟩ := hcompiled.materialized hids
  exact ⟨_, _, hm.functionBlocks ⟨hfits, hids⟩ (hm.printed hfits config)⟩

/-! ## A method that calls a generic one -/

section Painter

open Il (Code Operation)

/-- Hands back its argument, whatever its type. -/
def shade : MethodDef where
  id := ⟨1⟩
  owner := ⟨0⟩
  name := "shade"
  fullName := "F::shade"
  returnType := some ⟨1⟩
  parameters := [⟨1⟩]
  locals := []
  attributes := [.static]
  code := Code.empty.push (Operation.returnValue (some 0)).encode

/-- Puts a shade of white into the static field of its class. -/
def paint : MethodDef where
  id := ⟨0⟩
  owner := ⟨0⟩
  name := "paint"
  fullName := "F::paint"
  returnType := none
  parameters := []
  locals := [⟨0⟩, ⟨0⟩]
  attributes := [.static]
  code := (((Code.empty.push (Operation.loadFloat32 0 0x3f800000).encode).push
    (Operation.call (some 1) 1 [0]).encode).push (Operation.storeField 0 1).encode).push
    Operation.ret.encode

/-- A type of numbers, a placeholder, an output, and the two methods. -/
def painter : Assembly where
  name := "painter"
  types := #[⟨⟨0⟩, "F", .plain, [.representation (some "OpTypeFloat\x6032")], [⟨0⟩]⟩,
    ⟨⟨1⟩, "T", .genericParameter, [], []⟩]
  fields := #[⟨⟨0⟩, ⟨0⟩, "color", ⟨0⟩, [.static, .storage .output, .location 0]⟩]
  methods := #[paint, shade]
  typeNames := [("T", ⟨1⟩), ("F", ⟨0⟩)]

/-- The first method is run for every fragment. -/
def painterEntries : List EntryPoint :=
  [⟨⟨0⟩, .fragment⟩]

theorem painter_nulFree : ∀ entry ∈ painterEntries, ∀ method,
    painter.method? entry.method = some method → NulFree method.fullName := by
  intro entry hentry method hmethod
  obtain rfl := List.mem_singleton.mp hentry
  obtain rfl : paint = method := Option.some.inj hmethod
  decide

/-- The state after the entry point has been constructed. -/
def painterSession : Session :=
  (Session.start.run painter (Construct.entryPoints painter (firstAppearances painterEntries))).2

/-- The function of the generic method at the type of numbers. -/
def shadeFunction : Function where
  id := ⟨11⟩
  key := ⟨⟨1⟩, [⟨0⟩]⟩
  returnType := ⟨5⟩
  body := [327734, 5, 11, 0, 10, 196663, 5, 12, 131320, 13, 262203, 6, 14, 7, 196670, 14, 12, 262205,
    5, 15, 14, 131326, 15, 65592]
  callees := []

/-- The function of the entry point. -/
def paintFunction : Function where
  id := ⟨3⟩
  key := ⟨⟨0⟩, []⟩
  returnType := ⟨1⟩
  body := [327734, 1, 3, 0, 2, 131320, 4, 262203, 6, 7, 7, 262203, 6, 8, 7, 196670, 7, 9, 262205, 5,
    16, 7, 327737, 5, 17, 11, 16, 196670, 8, 17, 262205, 5, 20, 8, 196670, 19, 20, 65789, 65592]
  callees := [shadeFunction]

/-- The entry point with its function. -/
def painterReady : List ReadyEntry :=
  [⟨.fragment, originUpperLeft, "F::paint", paintFunction⟩]

/-- The module of the entry point. -/
def painterModule : Module :=
  painterSession.shared.module .standard painterReady

theorem painter_compiled : Compiled painter painterEntries .standard painterSession.shared
    painterReady painterModule := by
  have hended : (Session.start.run painter
      (Construct.entryPoints painter (firstAppearances painterEntries))).1 = .returned (.ok ()) := by
    decide +kernel
  have hrun : Session.start.run painter
      (Construct.entryPoints painter (firstAppearances painterEntries)) =
        (.returned (.ok ()), painterSession) := by
    rw [painterSession, ← hended]
  refine .alone hrun ?_
  decide +kernel

/-- The entry point keeps to the limits of the format. -/
theorem painterReady_inFormat {e : Emission} (hids : e.ids.issued + 1 < UInt32.size)
    (hdeclared : e.declared.all (fun i => i.operands.length + 1 < UInt16.size) = true)
    (hglobals : e.globals.length = 1) : e.InFormat painterReady where
  ids := hids
  declarations i hi := by simpa [Instruction.Fits] using List.all_eq_true.mp hdeclared i hi
  calls f hf g hbelow := by
    obtain rfl := List.mem_singleton.mp hf
    -- The entry point calls one function, and that calls none.
    have hleaf : ∀ g ∈ shadeFunction.callees, g.key.parameters.length + 4 < UInt16.size :=
      fun g hg => by cases hg
    rcases hbelow.cases_head with rfl | ⟨g', hg', hbelow⟩
    · intro callee hcallee
      obtain rfl := List.mem_singleton.mp hcallee
      decide
    · obtain rfl := List.mem_singleton.mp hg'
      rcases hbelow.cases_head with rfl | ⟨g'', hg'', -⟩
      · exact hleaf
      · cases hg''
  entries r hr := by
    obtain rfl := List.mem_singleton.mp hr
    have hinterface : e.interface.length = 1 := by
      rw [Emission.interface, List.length_mergeSort, hglobals]
    have hname : (literalString "F::paint").length = 3 := by decide +kernel
    simp [ReadyEntry.declaration, emit, Instruction.encode, hinterface, hname, UInt16.size]

theorem painter_inFormat : painterSession.shared.InFormat painterReady :=
  painterReady_inFormat (by decide +kernel) (by decide +kernel) (by decide +kernel)

theorem painter_instructionsFit : painterSession.shared.InstructionsFit painterReady :=
  painter_inFormat.legible.toInstructionsFit

theorem painter_issued : painterSession.shared.ids.issued < UInt32.size :=
  painter_inFormat.legible.ids

/-- The module of the entry point has the two functions, the caller first. -/
theorem painter_functionBlocks : painterSession.shared.InstructionsFit painterReady ∧
    painterSession.shared.ids.issued < UInt32.size ∧
    ∃ keys number, FunctionBlocks painter painterEntries painterModule keys number :=
  ⟨painter_instructionsFit, painter_issued,
    compiled_functionBlocks painter_compiled painter_instructionsFit painter_issued⟩

end Painter

end ShaderLowering
