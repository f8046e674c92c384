import ShaderLowering.Proofs.Inventory.Reach
import ShaderLowering.Proofs.Modules.Uniqueness
import ShaderLowering.Proofs.Offsets.Modules

/-!
# The interface of a module

All entry points of a module list the same variables, in the order of their storage classes and fields:
each variable that is declared for the module once, and these are the variables of the static fields that
the functions access that the entry points reach (`ListsInterface`).

The inventory of the run says which variables have been declared and exposed
(`Surveyed.variables_perm`), and the layout renames them in the declarations and in the interface alike,
whatever the name of an entry point looks like in between (`ReadyEntry.drop_operands_mapIds`).  So
neither the number of ids nor the names of the entry points matter.
-/

namespace ShaderLowering

open Construction
open Spirv
open Layout (functionsOf newId idsOf)

/-! ## What the statement speaks of -/

/-- The variables that are declared for a module, each with its field, and the entry points that list
them. -/
structure ListsInterface (a : Assembly) (requested : List EntryPoint) (m : Module)
    (exposed : List (FieldId × Instruction)) : Prop where
  /-- Behind the name of an entry point stand the results of the variables, and nothing else. -/
  entries : List.Forall₂ (fun entry i => ∃ method, a.method? entry.method = some method ∧
      (i.operands.drop (2 + (literalString method.fullName).length)).map some =
        exposed.map fun v => v.2.defines?)
    (firstAppearances requested) (withOp .entryPoint m.instructions)
  globals : (exposed.map Prod.snd).Perm (withOp .variable m.preamble)
  fields : ∀ field, field ∈ exposed.map Prod.fst ↔
    ∃ key, (Node.function key).Reached a requested ∧ Accesses a key field
  isStatic : ∀ v ∈ exposed, a.IsStatic v.1
  storage : ∀ v ∈ exposed, v.2.operands[2]? = some (a.storage v.1).code
  ascending : exposed.Pairwise fun v w => (a.storage v.1).code < (a.storage w.1).code ∨
    (a.storage v.1).code = (a.storage w.1).code ∧ v.1.raw < w.1.raw

/-! ## Variables in the inventory -/

namespace Item

/-- A variable is declared. -/
def isVariable (item : Item) : Bool :=
  item.instruction?.any fun i => i.op? = some .variable

/-- A variable is exposed. -/
def isExposed (item : Item) : Bool :=
  item.global?.isSome

theorem IsPlain.not_isVariable {item : Item} (h : item.IsPlain) : ¬item.isVariable = true := by
  cases item with
  | declared d id =>
    cases d with
    | «variable» pointerType storage => exact absurd trivial h
    | shape s => cases s <;> exact Bool.false_ne_true
    | _ => exact Bool.false_ne_true
  | taken id => exact Bool.false_ne_true
  | exposed g => exact h.elim

theorem IsPlain.not_isExposed {item : Item} (h : item.IsPlain) : ¬item.isExposed = true := by
  cases item with
  | exposed g => exact h.elim
  | _ => exact Bool.false_ne_true

end Item

/-- At most one variable is declared for a key, and at most one exposed. -/
theorem Belongs.count_le {a : Assembly} {k : Key} {items : List Item} (h : Belongs a k items) :
    items.countP Item.isVariable ≤ 1 ∧ items.countP Item.isExposed ≤ 1 := by
  have hplain : (∀ item ∈ items, item.IsPlain) →
      items.countP Item.isVariable ≤ 1 ∧ items.countP Item.isExposed ≤ 1 := fun hitems => by
    rw [List.countP_eq_zero.mpr fun item hitem => (hitems item hitem).not_isVariable,
      List.countP_eq_zero.mpr fun item hitem => (hitems item hitem).not_isExposed]
    exact ⟨Nat.zero_le 1, Nat.zero_le 1⟩
  cases k with
  | «variable» field =>
    cases (show Exposing a field items from h) with
    | nothing => exact ⟨Nat.zero_le 1, Nat.zero_le 1⟩
    | declared pointerType id => exact ⟨Nat.le_refl 1, Nat.zero_le 1⟩
    | exposed pointerType id valueType => exact ⟨Nat.le_refl 1, Nat.le_refl 1⟩
  | _ => exact hplain h

namespace Inventory

/-- The first declaration that is made for a key. -/
def declarationOf (h : Inventory) (k : Key) : Instruction :=
  ((h.of k).filterMap Item.instruction?).headD ⟨Op.nop.code, []⟩

/-- Where at most one item of a kind is put down for a key, the keys of these items are different. -/
theorem nodup_keys {h : Inventory} {kind : Item → Bool} (hone : ∀ k, (h.of k).countP kind ≤ 1) :
    ((h.filter fun note => kind note.2).map Prod.fst).Nodup := by
  refine List.nodup_iff_count_le_one.mpr fun k => ?_
  have hcount : ((h.filter fun note => kind note.2).map Prod.fst).count k = (h.of k).countP kind := by
    rw [List.count, List.countP_map, List.countP_filter, of, List.countP_map, List.countP_filter]
    exact List.countP_congr fun note _ => by simp [and_comm]
  exact hcount ▸ hone k

end Inventory

namespace Tallies

variable {a : Assembly} {h : Inventory} {e : Emission} (he : Tallies a h e) {k : Key}

include he

/-- A variable that is exposed has been declared for its field. -/
theorem of_exposed {g : GlobalVariable} (hmem : (k, .exposed g) ∈ h) :
    k = .variable g.field ∧ g.storage = a.storage g.field ∧ ∃ pointerType,
      h.of k = [.declared (.variable pointerType (a.storage g.field)) g.id, .exposed g] := by
  have hbelongs := he.belongs k
  rw [← Inventory.mem_of] at hmem
  cases k with
  | «variable» field =>
    generalize h.of (.variable field) = items at hbelongs hmem
    cases (show Exposing a field items from hbelongs) with
    | nothing => cases hmem
    | declared pointerType id => cases List.mem_singleton.mp hmem
    | exposed pointerType id valueType =>
      rcases List.mem_pair.mp hmem with heq | heq
      · cases heq
      · obtain rfl := Item.exposed.inj heq
        exact ⟨rfl, rfl, pointerType, rfl⟩
  | _ => exact (hbelongs _ hmem).elim

/-- A variable is declared for a field, before anything else is declared for it. -/
theorem of_isVariable {item : Item} (hmem : (k, item) ∈ h) (hvariable : item.isVariable = true) :
    (∃ field, k = .variable field) ∧ item.instruction? = some (h.declarationOf k) := by
  have hbelongs := he.belongs k
  rw [← Inventory.mem_of] at hmem
  rw [Inventory.declarationOf]
  cases k with
  | «variable» field =>
    refine ⟨⟨field, rfl⟩, ?_⟩
    generalize h.of (.variable field) = items at hbelongs hmem
    cases (show Exposing a field items from hbelongs) with
    | nothing => cases hmem
    | declared pointerType id =>
      obtain rfl := List.mem_singleton.mp hmem
      rfl
    | exposed pointerType id valueType =>
      rcases List.mem_pair.mp hmem with rfl | rfl
      · rfl
      · cases hvariable
  | _ => exact absurd hvariable (hbelongs _ hmem).not_isVariable

theorem declarationOf_exposed {g : GlobalVariable} (hmem : (k, .exposed g) ∈ h) :
    ∃ pointerType, h.declarationOf k =
      (Declaration.variable pointerType (a.storage g.field)).instruction g.id := by
  obtain ⟨-, -, pointerType, hof⟩ := he.of_exposed hmem
  exact ⟨pointerType, by rw [Inventory.declarationOf, hof]; rfl⟩

theorem exists_of_mem_globals {g : GlobalVariable} (hg : g ∈ e.globals) :
    (Key.variable g.field, Item.exposed g) ∈ h := by
  rw [he.globals] at hg
  obtain ⟨⟨k, item⟩, hmem, hitem⟩ := List.mem_filterMap.mp hg
  cases item with
  | exposed g' =>
    obtain rfl := Option.some.inj hitem
    exact (he.of_exposed hmem).1 ▸ hmem
  | declared d id => cases hitem
  | taken id => cases hitem

theorem mem_globals {g : GlobalVariable} (hmem : (k, .exposed g) ∈ h) : g ∈ e.globals := by
  rw [he.globals]
  exact List.mem_filterMap.mpr ⟨_, hmem, rfl⟩

end Tallies

theorem map_filterMap_eq {α β γ : Type} {l : List α} {φ : α → Option β} {f : β → γ} {p : α → Bool}
    {g : α → γ} (h : ∀ x ∈ l, (φ x).map f = if p x = true then some (g x) else none) :
    (l.filterMap φ).map f = (l.filter p).map g := by
  rw [List.map_filterMap, ← List.filterMap_eq_map, List.filterMap_filter]
  exact List.filterMap_congr h

namespace Surveyed

variable {a : Assembly} {requested : List EntryPoint} {e : Emission} {ready : List ReadyEntry}
  {h : Inventory} (hh : Surveyed a (firstAppearances requested) e ready h)

include hh

/-- The keys for which variables are declared are those for which they are exposed. -/
theorem keys_perm : ((h.filter fun note => note.2.isExposed).map Prod.fst).Perm
    ((h.filter fun note => note.2.isVariable).map Prod.fst) := by
  have hbelongs := fun k => (hh.tallies.belongs k).count_le
  refine (List.perm_ext_iff_of_nodup (Inventory.nodup_keys fun k => (hbelongs k).2)
    -- Each key comes once in either list, so it is enough to compare their members.
    (Inventory.nodup_keys fun k => (hbelongs k).1)).mpr fun k => ?_
  simp only [List.mem_map, List.mem_filter]
  constructor
  · rintro ⟨⟨_, item⟩, ⟨hmem, hexposed⟩, rfl⟩
    cases item with
    | exposed g =>
      obtain ⟨-, -, pointerType, hof⟩ := hh.tallies.of_exposed hmem
      refine ⟨(_, .declared (.variable pointerType (a.storage g.field)) g.id), ⟨?_, rfl⟩, rfl⟩
      rw [← Inventory.mem_of, hof]
      exact List.mem_cons_self
    | declared d id => cases hexposed
    | taken id => cases hexposed
  · rintro ⟨⟨_, item⟩, ⟨hmem, hvariable⟩, rfl⟩
    obtain ⟨⟨field, rfl⟩, -⟩ := hh.tallies.of_isVariable hmem hvariable
    -- A variable that is declared is one that some function accesses, and those are exposed.
    obtain ⟨key, hreached, haccesses⟩ := hh.accessed_of_mem hmem
    obtain ⟨g, hg⟩ := hh.exposed_of_accessed hreached haccesses
    exact ⟨(_, _), ⟨hg, rfl⟩, rfl⟩

theorem map_globals {γ : Type} (f : Key → γ) : (e.globals.map fun g => f (.variable g.field)) =
    ((h.filter fun note => note.2.isExposed).map Prod.fst).map f := by
  rw [hh.tallies.globals, List.map_map]
  refine map_filterMap_eq fun note hnote => ?_
  obtain ⟨k, item⟩ := note
  cases item with
  | exposed g =>
    obtain ⟨rfl, -⟩ := hh.tallies.of_exposed hnote
    rfl
  | declared d id => rfl
  | taken id => rfl

theorem nodup_fields : (e.globals.map GlobalVariable.field).Nodup := by
  have hkeys : (e.globals.map GlobalVariable.field).map Key.variable =
      (h.filter fun note => note.2.isExposed).map Prod.fst := by
    rw [List.map_map, ← List.map_id (List.map Prod.fst _)]
    exact hh.map_globals id
  have hnodup := Inventory.nodup_keys fun k => (hh.tallies.belongs k).count_le.2
  exact .of_map Key.variable (hkeys ▸ hnodup)

/-- The variables that are declared are those that are exposed. -/
theorem variables_perm : (e.globals.map fun g => h.declarationOf (.variable g.field)).Perm
    (withOp .variable e.declared) := by
  have hdeclared : withOp .variable e.declared =
      ((h.filter fun note => note.2.isVariable).map Prod.fst).map h.declarationOf := by
    rw [withOp, hh.tallies.declared, List.filter_filterMap, List.map_map,
      ← List.map_id (List.filterMap _ h)]
    refine map_filterMap_eq fun note hnote => ?_
    rw [Option.map_id, id]
    by_cases hvariable : note.2.isVariable = true
    · obtain ⟨-, hfirst⟩ := hh.tallies.of_isVariable hnote hvariable
      rw [if_pos hvariable, hfirst]
      rw [Item.isVariable, hfirst] at hvariable
      exact Option.filter_some_pos hvariable
    · rw [if_neg hvariable, Option.filter_eq_none_iff]
      exact fun i hi hop => hvariable (by rw [Item.isVariable, hi]; exact hop)
  rw [hh.map_globals h.declarationOf, hdeclared]
  exact hh.keys_perm.map _

/-- The interface lists fields in their order. -/
theorem map_interface : e.interface.map GlobalVariable.field =
    a.interface (e.globals.map GlobalVariable.field) := by
  refine List.map_mergeSort fun v hv w hw => ?_
  obtain ⟨-, hstorage, -⟩ := hh.tallies.of_exposed (hh.tallies.exists_of_mem_globals hv)
  obtain ⟨-, hstorage', -⟩ := hh.tallies.of_exposed (hh.tallies.exists_of_mem_globals hw)
  rw [GlobalVariable.le, hstorage, hstorage', Assembly.interfaceLe]

/-- No field stands in the interface twice. -/
theorem ascending : (e.interface.map GlobalVariable.field).Pairwise fun f f' =>
    (a.storage f).code < (a.storage f').code ∨
      (a.storage f).code = (a.storage f').code ∧ f.raw < f'.raw := by
  rw [hh.map_interface]
  have hsorted : (a.interface (e.globals.map GlobalVariable.field)).Pairwise fun f f' =>
      a.interfaceLe f f' = true :=
    List.pairwise_mergeSort Assembly.interfaceLe_trans Assembly.interfaceLe_total _
  have hnodup : (a.interface (e.globals.map GlobalVariable.field)).Nodup :=
    (List.mergeSort_perm _ _).nodup_iff.mpr hh.nodup_fields
  refine hsorted.imp₂ (fun f f' hle hne => ?_) hnodup
  rcases Assembly.interfaceLe_iff.mp hle with hlt | ⟨heq, hle⟩
  · exact .inl hlt
  · exact .inr ⟨heq, UInt32.lt_of_le_of_ne hle fun hraw => hne (congrArg EntityId.mk hraw)⟩

end Surveyed

/-! ## Entry points under other ids -/

namespace Spirv

/-- A literal string has a word with a zero byte, be it before its end. -/
theorem exists_zero_mem_literalBytes (bytes : List UInt8) :
    ∃ w ∈ literalBytes bytes, hasZeroByte w = true := by
  fun_induction literalBytes bytes with
  | case1 a b c d bytes ih =>
    obtain ⟨w, hw, hzero⟩ := ih
    exact ⟨w, List.mem_cons_of_mem _ hw, hzero⟩
  | case2 bytes hshort =>
    exact ⟨_, List.mem_singleton_self _, hasZeroByte_short (length_lt_of_short hshort)⟩

/-- The layout takes the interface to begin no later than it does. -/
theorem interfaceStart_le (s : String) (model function : Word) (rest : List Word) :
    Instruction.interfaceStart (model :: function :: literalString s ++ rest) ≤
      2 + (literalString s).length := by
  have hsome : ((literalString s).findIdx? hasZeroByte).isSome = true := by
    rw [List.findIdx?_isSome, List.any_eq_true]
    exact exists_zero_mem_literalBytes _
  obtain ⟨last, hlast⟩ := Option.isSome_iff_exists.mp hsome
  have hlt := (List.findIdx?_eq_some_iff_getElem.mp hlast).1
  rw [Instruction.interfaceStart, List.cons_append, List.cons_append, List.drop_succ_cons,
    List.drop_succ_cons, List.drop_zero, List.findIdx?_append, hlast, Option.some_or]
  change last + 3 ≤ _
  omega

end Spirv

/-- Whatever becomes of the name of an entry point, its interface is renamed. -/
theorem ReadyEntry.drop_operands_mapIds (entry : ReadyEntry) (interface : List GlobalVariable)
    (ρ : Word → Word) : ((entry.instruction interface).mapIds ρ).operands.drop
      (2 + (literalString entry.name).length) = interface.map fun g => ρ g.id.raw := by
  set i := entry.instruction interface with hi
  set start := 2 + (literalString entry.name).length with hstart
  have hoperand : ∀ j, i.operands[start + j]? = (interface.map fun g => g.id.raw)[j]? := fun j => by
    have hdrop : i.operands.drop start = interface.map fun g => g.id.raw := by
      rw [hi, ReadyEntry.instruction, hstart, List.map_map]
      exact List.drop_left' (by simp only [List.length_cons]; omega)
    rw [← List.getElem?_drop, hdrop]
  -- Position by position, as the name before them may not be what it was.
  refine List.ext_getElem? fun j => ?_
  rw [List.getElem?_drop, Instruction.getElem?_operands_mapIds, hoperand, List.getElem?_map,
    List.getElem?_map, Option.map_map]
  cases hj : interface[j]? with
  | none => rfl
  | some g =>
    have hin : start + j < i.operands.length := by
      by_contra hout
      have hnone := List.getElem?_eq_none (Nat.le_of_not_lt hout)
      rw [hoperand, List.getElem?_map, hj] at hnone
      cases hnone
    -- The scan for the end of the name stops no later than at the interface.
    have hposition : start + j ∈ i.idPositions := by
      have hbegin : Instruction.interfaceStart i.operands ≤ start := interfaceStart_le _ _ _ _
      have hop : i.op? = some .entryPoint := Op.ofCode?_code .entryPoint
      refine List.mem_filter.mpr ⟨?_, decide_eq_true hin⟩
      simp only [Instruction.nominalIdPositions, hop, List.mem_cons, List.mem_range'_1]
      omega
    simp [hposition]

/-! ## Functions of the module -/

theorem Sourced.op?_ne_entryPoint {h : Inventory} {here : List Word} {callees : List Function}
    {i : Instruction} (hi : Sourced h here callees i) : i.op? ≠ some .entryPoint := by
  cases hi <;> simp [Instruction.op?]

/-- The words of a function begin with the instruction that begins it, and hold no entry points. -/
theorem Written.decode_eq {h : Inventory} {f : Function} (hf : Written h f) (hcalls : f.CallsFit) :
    (∃ first rest, Instruction.decode f.body = first :: rest ∧ first.Begins) ∧
      ∀ i ∈ Instruction.decode f.body, i.op? ≠ some .entryPoint := by
  cases hf with
  | intro first rest hid hreturn hfirst hbody hsourced hcallees =>
    rw [hbody, Instruction.decode_flatMap_encode fun i hi => (hsourced i hi).fits hcalls]
    exact ⟨⟨first, rest, rfl, hfirst⟩, fun i hi => (hsourced i hi).op?_ne_entryPoint⟩

namespace Spirv

/-- What comes before functions is the preamble. -/
theorem preamble_append {before functions : List Instruction} (hbefore : ∀ i ∈ before, ¬i.Begins)
    (hfunctions : functions = [] ∨ ∃ first rest, functions = first :: rest ∧ first.Begins) :
    preamble (before ++ functions) = before := by
  have hall : ∀ i ∈ before, decide (¬i.Begins) = true := fun i hi => decide_eq_true (hbefore i hi)
  rw [preamble, List.takeWhile_append_of_pos hall]
  rcases hfunctions with rfl | ⟨first, rest, rfl, hfirst⟩
  · simp
  · simp [hfirst]

theorem withOp_map_mapIds (op : Op) (ρ : Word → Word) (is : List Instruction) :
    withOp op (is.map (Instruction.mapIds ρ)) = (withOp op is).map (Instruction.mapIds ρ) := by
  rw [withOp, withOp, List.filter_map]
  rfl

theorem withOp_eq_nil {op : Op} {is : List Instruction} (h : ∀ i ∈ is, i.op? ≠ some op) :
    withOp op is = [] :=
  List.filter_eq_nil_iff.mpr fun i hi => by simpa using h i hi

end Spirv

/-- The opcodes of a header. -/
theorem Emission.op?_of_mem_header {e : Emission} {ready : List ReadyEntry} {i : Instruction}
    (hi : i ∈ e.header ready) :
    i.op? ∈ [some .capability, some .memoryModel, some .entryPoint, some .executionMode] := by
  rcases List.mem_append.mp hi with hi | hi
  · rcases List.mem_append.mp hi with hi | hi
    · rcases List.mem_pair.mp hi with rfl | rfl <;> simp [Instruction.op?]
    · obtain ⟨r, -, rfl⟩ := List.mem_map.mp hi
      simp [Instruction.op?, ReadyEntry.instruction]
  · obtain ⟨r, -, rfl⟩ := List.mem_map.mp hi
    simp [Instruction.op?, ReadyEntry.modeInstruction]

/-- The entry points of a header are those that are ready. -/
theorem Emission.withOp_header (e : Emission) (ready : List ReadyEntry) :
    withOp .entryPoint (e.header ready) = ready.map fun r => r.instruction e.interface := by
  have hmodes : withOp .entryPoint (ready.map ReadyEntry.modeInstruction) = [] :=
    withOp_eq_nil fun i hi => by
      obtain ⟨r, -, rfl⟩ := List.mem_map.mp hi
      simp [Instruction.op?, ReadyEntry.modeInstruction]
  have hentries : withOp .entryPoint (ready.map fun r => r.instruction e.interface) =
      ready.map fun r => r.instruction e.interface :=
    List.filter_eq_self.mpr fun i hi => by
      obtain ⟨r, -, rfl⟩ := List.mem_map.mp hi
      simp [Instruction.op?, ReadyEntry.instruction]
  rw [Emission.header, withOp_append, withOp_append, hmodes, hentries, List.append_nil]
  rfl

/-- Annotations are decorations. -/
theorem Attributed.op?_of_mem_annotated {a : Assembly} {h : Writings} {e : Emission}
    {state? : (k : Key) → Option (SlotState k.Value)} (hattributed : Attributed a h e state?) {i : Instruction}
    (hi : i ∈ e.annotated) : i.op? = some .decorate := by
  rw [hattributed.recorded.annotated_eq] at hi
  obtain ⟨o, -, rfl⟩ := List.mem_map.mp hi
  rfl

namespace Surveyed

variable {a : Assembly} {requested : List EntryPoint} {e : Emission} {ready : List ReadyEntry}
  {h : Inventory} (hh : Surveyed a (firstAppearances requested) e ready h)
  (hfits : e.InstructionsFit ready)

include hh

theorem op?_of_mem_declared {i : Instruction} (hi : i ∈ e.declared) :
    i.op? ≠ some .function ∧ i.op? ≠ some .entryPoint := by
  rw [hh.tallies.declared] at hi
  obtain ⟨k, d, id, -, rfl⟩ := Inventory.exists_of_mem_declarations hi
  cases d with
  | shape s => cases s <;> simp [Declaration.instruction, Shape.op, Instruction.op?]
  | _ => simp [Declaration.instruction, Instruction.op?]

include hfits

/-- The functions of the module are in the inventory, and their words fit the format. -/
theorem written_of_mem_callOrder {f : Function}
    (hf : f ∈ Layout.callOrder (ready.map ReadyEntry.function)) : Written h f ∧ f.CallsFit := by
  obtain ⟨_, hroot, hbelow⟩ := Layout.below_of_mem_callOrderFrom hf
  obtain ⟨r, hr, rfl⟩ := List.mem_map.mp hroot
  obtain ⟨function?, hready, hwritten⟩ := hh.ready
  obtain ⟨entry, -, hentry⟩ := forall₂_mem_left (mapM_eq_ok.mp hready).flip hr
  obtain ⟨method, f', mode, -, hf', -, rfl⟩ := ReadyEntry.ofEntry_eq_ok.mp hentry
  exact ⟨(hwritten _ f' hf').1.2.of_below hbelow, hfits.calls _ hr f hbelow⟩

/-- What a module holds for its functions begins with a function, and holds no entry points. -/
theorem functionsOf_callOrder :
    let functions := functionsOf ((Layout.callOrder (ready.map ReadyEntry.function)).map Function.body)
    (functions = [] ∨ ∃ first rest, functions = first :: rest ∧ first.Begins) ∧
      ∀ i ∈ functions, i.op? ≠ some .entryPoint := by
  have hwritten := fun f hf => hh.written_of_mem_callOrder hfits (f := f) hf
  dsimp only
  generalize Layout.callOrder (ready.map ReadyEntry.function) = fs at hwritten
  constructor
  · cases fs with
    | nil => exact .inl rfl
    | cons f fs =>
      obtain ⟨hf, hcalls⟩ := hwritten f List.mem_cons_self
      obtain ⟨⟨first, rest, hdecode, hfirst⟩, -⟩ := hf.decode_eq hcalls
      exact .inr ⟨first, rest ++ functionsOf (fs.map Function.body),
        by simp [functionsOf, hdecode], hfirst⟩
  · intro i hi
    obtain ⟨_, hbody, hi⟩ := List.mem_flatMap.mp hi
    obtain ⟨f, hf, rfl⟩ := List.mem_map.mp hbody
    obtain ⟨hf, hcalls⟩ := hwritten f hf
    exact (hf.decode_eq hcalls).2 i hi

/-- A module begins with its header, its annotations and its declarations, and its functions follow. -/
theorem preamble_module {state? : (k : Key) → Option (SlotState k.Value)} {w : Writings}
    (hattributed : Attributed a w e state?) (config : Config) :
    ∃ annotated declared functions, annotated.Perm e.annotated ∧ declared.Perm e.declared ∧
      (∀ i ∈ functions, i.op? ≠ some .entryPoint) ∧
      (e.module config ready).instructions = (e.header ready ++ annotated ++ declared ++ functions).map
        (Instruction.mapIds (newId (e.distinctIds ready))) ∧
      (e.module config ready).preamble = (e.header ready ++ annotated ++ declared).map
        (Instruction.mapIds (newId (e.distinctIds ready))) := by
  obtain ⟨annotated, declared, hannotations, hdeclarations, hinstructions⟩ :=
    e.renames_module config ready (Instruction.decode_flatMap_encode hfits.declarations)
      hattributed.decode_annotations
  obtain ⟨hbegin, hfunctions⟩ := hh.functionsOf_callOrder hfits
  rw [Emission.text, e.headerSection_eq_flatMap,
    Instruction.decode_flatMap_encode (Emission.header_fits hfits.entries)] at hinstructions
  refine ⟨annotated, declared, _, hannotations, hdeclarations, hfunctions, hinstructions, ?_⟩
  rw [Module.preamble, hinstructions, List.map_append]
  refine preamble_append (fun i hi => ?_) ?_
  · obtain ⟨j, hj, rfl⟩ := List.mem_map.mp hi
    rw [Instruction.Begins, Instruction.op?_mapIds]
    intro hfunction
    rcases List.mem_append.mp hj with hj | hj
    · rcases List.mem_append.mp hj with hj | hj
      · have hop := Emission.op?_of_mem_header hj
        simp [hfunction] at hop
      · have hop := hattributed.op?_of_mem_annotated (hannotations.mem_iff.mp hj)
        simp [hfunction] at hop
    · exact (hh.op?_of_mem_declared (hdeclarations.mem_iff.mp hj)).1 hfunction
  · rcases hbegin with hnil | ⟨first, rest, hcons, hfirst⟩
    · exact .inl (List.map_eq_nil_iff.mpr hnil)
    · rw [hcons]
      exact .inr ⟨_, _, List.map_cons, hfirst⟩

/-- The entry points of a module and its variables are those that have been written, under the ids of the
layout. -/
theorem withOp_module {state? : (k : Key) → Option (SlotState k.Value)} {w : Writings}
    (hattributed : Attributed a w e state?) (config : Config) :
    withOp .entryPoint (e.module config ready).instructions = ready.map (fun entry =>
        (entry.instruction e.interface).mapIds (newId (e.distinctIds ready))) ∧
      ((withOp .variable e.declared).map (Instruction.mapIds (newId (e.distinctIds ready)))).Perm
        (withOp .variable (e.module config ready).preamble) := by
  obtain ⟨annotated, declared, functions, hannotations, hdeclarations, hfunctions, hinstructions,
    hpreamble⟩ := hh.preamble_module hfits hattributed config
  have hannotated : ∀ op, op ≠ .decorate → withOp op annotated = [] := fun op hne =>
    withOp_eq_nil fun i hi hop => hne <| Option.some.inj <|
      hop.symm.trans (hattributed.op?_of_mem_annotated (hannotations.mem_iff.mp hi))
  rw [hinstructions, hpreamble]
  simp only [withOp_map_mapIds, withOp_append]
  constructor
  · have hdeclared : withOp .entryPoint declared = [] := withOp_eq_nil fun i hi =>
      (hh.op?_of_mem_declared (hdeclarations.mem_iff.mp hi)).2
    rw [Emission.withOp_header, hannotated _ (by decide), hdeclared, withOp_eq_nil hfunctions]
    simp
  · have hheader : withOp .variable (e.header ready) = [] := withOp_eq_nil fun i hi hvariable => by
      have hop := Emission.op?_of_mem_header hi
      simp [hvariable] at hop
    rw [hheader, hannotated _ (by decide)]
    exact (hdeclarations.filter _).symm.map _

end Surveyed

/-! ## The interface -/

section Interface

variable {a : Assembly} {requested : List EntryPoint} {e : Emission} {ready : List ReadyEntry}
  {h : Inventory}

/-- The variables of the interface, as the module has them. -/
def exposedVariables (e : Emission) (h : Inventory) (ρ : Word → Word) : List (FieldId × Instruction) :=
  e.interface.map fun g => (g.field, (h.declarationOf (.variable g.field)).mapIds ρ)

theorem map_fst_exposedVariables (ρ : Word → Word) :
    (exposedVariables e h ρ).map Prod.fst = e.interface.map GlobalVariable.field := by
  rw [exposedVariables, List.map_map]
  rfl

theorem Emission.mem_interface {g : GlobalVariable} : g ∈ e.interface ↔ g ∈ e.globals :=
  List.mem_mergeSort

namespace Surveyed

variable (hh : Surveyed a (firstAppearances requested) e ready h) (ρ : Word → Word)

include hh

/-- The result of a variable is its id, and it has the storage class of its field. -/
theorem defines?_of_mem_interface {g : GlobalVariable} (hg : g ∈ e.interface) :
    ((h.declarationOf (.variable g.field)).mapIds ρ).defines? = some (ρ g.id.raw) ∧
      ((h.declarationOf (.variable g.field)).mapIds ρ).operands[2]? =
        some (a.storage g.field).code := by
  obtain ⟨pointerType, hdeclaration⟩ := hh.tallies.declarationOf_exposed
    (hh.tallies.exists_of_mem_globals (Emission.mem_interface.mp hg))
  rw [hdeclaration]
  exact ⟨rfl, rfl⟩

theorem map_defines?_exposedVariables : ((exposedVariables e h ρ).map fun v => v.2.defines?) =
    e.interface.map fun g => some (ρ g.id.raw) := by
  rw [exposedVariables, List.map_map]
  exact List.map_congr_left fun g hg => (hh.defines?_of_mem_interface ρ hg).1

/-- The fields of the interface are those that the functions access that are reached. -/
theorem mem_map_interface {field : FieldId} : field ∈ e.interface.map GlobalVariable.field ↔
    ∃ key, (Node.function key).Reached a requested ∧ Accesses a key field := by
  constructor
  · intro hfield
    obtain ⟨g, hg, rfl⟩ := List.mem_map.mp hfield
    exact hh.accessed_of_mem (hh.tallies.exists_of_mem_globals (Emission.mem_interface.mp hg))
  · rintro ⟨key, hreached, haccesses⟩
    obtain ⟨g, hg⟩ := hh.exposed_of_accessed hreached haccesses
    refine List.mem_map.mpr ⟨g, Emission.mem_interface.mpr (hh.tallies.mem_globals hg), ?_⟩
    exact (Key.variable.inj (hh.tallies.of_exposed hg).1).symm

/-- Different variables have different ids, as long as there are enough. -/
theorem nodup_interface (hids : e.ids.issued < UInt32.size) (hρ : Set.InjOn ρ {w | w ∈ idsOf e.declared}) :
    (e.interface.map fun g => some (ρ g.id.raw)).Nodup := by
  have hnodup : e.interface.Nodup :=
    (List.mergeSort_perm e.globals _).nodup_iff.mpr (.of_map _ hh.nodup_fields)
  have hdeclared : ∀ g ∈ e.interface, g.id.raw ∈ idsOf e.declared ∧ ∃ pointerType,
      (Key.variable g.field, Item.declared (.variable pointerType (a.storage g.field)) g.id) ∈ h := by
    intro g hg
    obtain ⟨-, -, pointerType, hof⟩ := hh.tallies.of_exposed
      (hh.tallies.exists_of_mem_globals (Emission.mem_interface.mp hg))
    have hmem := Inventory.mem_of.mp (hof ▸ List.mem_cons_self)
    have hdeclared : e.declared = h.declarations := hh.tallies.declared
    refine ⟨mem_idsOf_of_mem (hdeclared ▸ Inventory.mem_declarations hmem) ?_, pointerType, hmem⟩
    exact (declares_instruction _ _).mem_ids (Declaration.resultId?_instruction _ _)
  refine hnodup.map_on fun g hg g' hg' heq => ?_
  obtain ⟨hin, pointerType, hmem⟩ := hdeclared g hg
  obtain ⟨hin', pointerType', hmem'⟩ := hdeclared g' hg'
  -- Ids as words are equal, so the same note declares both.
  have hid : g.id.raw = g'.id.raw := hρ hin hin' (Option.some.inj heq)
  have hascends : h.Ascends := hh.tallies.ascending hids
  have hkey := congrArg Prod.fst (hascends.note_eq hmem hmem' rfl rfl hid)
  exact List.inj_on_of_nodup_map hh.nodup_fields (Emission.mem_interface.mp hg)
    (Emission.mem_interface.mp hg') (Key.variable.inj hkey)

/-- Behind the names of the entry points stand the results of the variables. -/
theorem forall₂_drop_operands : List.Forall₂ (fun entry i => ∃ method,
      a.method? entry.method = some method ∧
      (i.operands.drop (2 + (literalString method.fullName).length)).map some =
        (exposedVariables e h ρ).map fun v => v.2.defines?)
    (firstAppearances requested) (ready.map fun entry => (entry.instruction e.interface).mapIds ρ) := by
  obtain ⟨function?, hready, -⟩ := hh.ready
  rw [List.forall₂_map_right_iff]
  refine (mapM_eq_ok.mp hready).imp fun entry r hr => ?_
  obtain ⟨method, f, mode, hmethod, -, -, rfl⟩ := ReadyEntry.ofEntry_eq_ok.mp hr
  have hdrop := ReadyEntry.drop_operands_mapIds ⟨entry.model, mode, method.fullName, f⟩ e.interface ρ
  refine ⟨method, hmethod, ?_⟩
  rw [hh.map_defines?_exposedVariables]
  exact (congrArg (List.map some) hdrop).trans List.map_map

end Surveyed

/-- The entry points of a module list the variables of the fields that are accessed, each once and in
their order. -/
theorem compiled_listsInterface {config : Config} {m : Module} (hbuilt : a.Built)
    (hcompiled : Compiled a requested config e ready m) (hfits : e.InstructionsFit ready) :
    ∃ exposed, ListsInterface a requested m exposed ∧
      (e.ids.issued < UInt32.size → (exposed.map fun v => v.2.defines?).Nodup) := by
  -- What is exposed is told by the survey of the run, what is declared by its writings.
  obtain ⟨⟨h, hh⟩, rfl⟩ := hcompiled.surveyed hbuilt.numbered
  obtain ⟨state?, harises, -⟩ := hcompiled.exists_arises
  obtain ⟨w, hattributed⟩ := harises.attributed
  obtain ⟨hentries, hvariables⟩ := hh.withOp_module hfits hattributed config
  set ρ := newId (e.distinctIds ready)
  refine ⟨exposedVariables e h ρ, ?_, fun hids => ?_⟩
  · refine ⟨hentries ▸ hh.forall₂_drop_operands ρ, ?_, fun field => ?_, ?_, ?_, ?_⟩
    · refine List.Perm.trans ?_ hvariables
      have hsnd : (exposedVariables e h ρ).map Prod.snd =
          (e.interface.map fun g => h.declarationOf (.variable g.field)).map (Instruction.mapIds ρ) := by
        rw [exposedVariables, List.map_map, List.map_map]
        rfl
      rw [hsnd]
      exact (((List.mergeSort_perm _ _).map _).trans hh.variables_perm).map _
    · rw [map_fst_exposedVariables, hh.mem_map_interface]
    · intro v hv
      obtain ⟨g, hg, rfl⟩ := List.mem_map.mp hv
      exact hh.isStatic_of_mem (hh.tallies.exists_of_mem_globals (Emission.mem_interface.mp hg))
    · intro v hv
      obtain ⟨g, hg, rfl⟩ := List.mem_map.mp hv
      exact (hh.defines?_of_mem_interface ρ hg).2
    · have hascending := hh.ascending
      rw [← map_fst_exposedVariables ρ, List.pairwise_map] at hascending
      exact hascending
  · rw [hh.map_defines?_exposedVariables]
    exact hh.nodup_interface ρ hids (e.newId_injOn ready)

end Interface

/-- The entry point of the painter lists the output that the other function writes. -/
theorem painter_listsInterface : painter.Built ∧ painterSession.shared.InstructionsFit painterReady ∧
    ∃ exposed, ListsInterface painter painterEntries painterModule exposed ∧
      (painterSession.shared.ids.issued < UInt32.size → (exposed.map fun v => v.2.defines?).Nodup) :=
  ⟨painter_built, painter_instructionsFit,
    compiled_listsInterface painter_built painter_compiled painter_instructionsFit⟩

end ShaderLowering
