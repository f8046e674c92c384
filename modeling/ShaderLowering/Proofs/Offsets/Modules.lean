import ShaderLowering.Proofs.Layout.Renaming
import ShaderLowering.Proofs.Modules.Typing
import ShaderLowering.Proofs.Modules.Uniqueness
import ShaderLowering.Proofs.Offsets.Factories
import ShaderLowering.Proofs.Sessions.Failures

/-!
# It does not matter where ids begin

A run that begins when `k` ids have been issued fails as the ordinary run does, or it writes the same
with `k` added to each id: to the words at which the layout looks for ids, and to no other word
(`RaisedBy`).  As adding `k` tells all words apart, the layout gives both the same ids
(`Layout.canonicalize_of_injective`), so the modules are the same (`compileFrom_startAfter`).

The names of entry points have to be without the zero character for the latter, because the layout looks
for the interface of an entry point behind the first word with a zero byte.
-/

namespace ShaderLowering

open Construction (State SlotState Outcome Regime)
open Spirv
open Layout (functionsOf)

/-! ## Words and ids -/

/-- An instruction, and the same with a number added to each id. -/
structure Spirv.Instruction.RaisedBy (k : Nat) (i i' : Instruction) : Prop where
  opcode : i'.opcode = i.opcode
  length : i'.operands.length = i.operands.length
  ids : ∀ p ∈ i.idPositions, ∀ w w', i.operands[p]? = some w → i'.operands[p]? = some w' →
    w'.toNat = w.toNat + k
  others : ∀ p, p ∉ i.idPositions → i'.operands[p]? = i.operands[p]?

/-- The words of instructions, and of the same instructions with a number added to each id. -/
structure RaisedBy (k : Nat) (words words' : List Word) : Prop where
  whole : (Instruction.decode words).flatMap Instruction.encode = words
  whole' : (Instruction.decode words').flatMap Instruction.encode = words'
  instructions : List.Forall₂ (Instruction.RaisedBy k) (Instruction.decode words)
    (Instruction.decode words')

namespace Offset

variable {o : Offset}

theorem Instructions.raisedBy {i i' : Instruction} (h : o.Instructions i i') :
    i.RaisedBy o.amount i' := by
  obtain ⟨rfl, hle⟩ := h
  refine ⟨rfl, Instruction.length_operands_mapIds _ i, fun p hp w w' hw hw' => ?_, fun p hp => ?_⟩
  · rw [Instruction.getElem?_operands_mapIds, hw, Option.map_some, if_pos hp] at hw'
    obtain rfl := Option.some.inj hw'
    have hlast := hle w (List.mem_filterMap.mpr ⟨p, hp, hw⟩)
    have hfits := o.fits
    have hsize : UInt32.size = 4294967296 := rfl
    rw [word, UInt32.toNat_add, UInt32.toNat_ofNat']
    omega
  · simp [Instruction.getElem?_operands_mapIds, hp]

theorem Instructions.map_eq {is is' : List Instruction} (h : List.Forall₂ o.Instructions is is') :
    is' = is.map (Instruction.mapIds o.word) := by
  induction h with
  | nil => rfl
  | cons hi _ ih => rw [List.map_cons, hi.eq, ih]

/-- Instructions that fit the format and differ in their ids only, as words. -/
def Streams (o : Offset) (words words' : List Word) : Prop :=
  ∃ is is', List.Forall₂ o.Instructions is is' ∧ (∀ i ∈ is, i.Fits) ∧
    words = is.flatMap Instruction.encode ∧ words' = is'.flatMap Instruction.encode

namespace Streams

variable {words words' : List Word}

theorem decode (h : o.Streams words words') :
    (Instruction.decode words).flatMap Instruction.encode = words ∧
      (Instruction.decode words').flatMap Instruction.encode = words' ∧
      List.Forall₂ o.Instructions (Instruction.decode words) (Instruction.decode words') := by
  obtain ⟨is, is', his, hfits, rfl, rfl⟩ := h
  have hfits' : ∀ i' ∈ is', i'.Fits := by
    induction his with
    | nil => exact nofun
    | cons hi _ ih =>
      obtain ⟨hfirst, hrest⟩ := List.forall_mem_cons.mp hfits
      exact List.forall_mem_cons.mpr ⟨hi.eq ▸ Instruction.fits_mapIds.mpr hfirst, ih hrest⟩
  rw [Instruction.decode_flatMap_encode hfits, Instruction.decode_flatMap_encode hfits']
  exact ⟨rfl, rfl, his⟩

theorem raisedBy (h : o.Streams words words') : RaisedBy o.amount words words' :=
  let ⟨hwhole, hwhole', his⟩ := h.decode
  ⟨hwhole, hwhole', his.imp fun _ _ hi => hi.raisedBy⟩

theorem decode_eq (h : o.Streams words words') :
    Instruction.decode words' = (Instruction.decode words).map (Instruction.mapIds o.word) := by
  exact Instructions.map_eq h.decode.2.2

end Streams

/-- The words of a function fit the format if its calls do. -/
theorem Texts.streams {f : Function} {words words' : List Word} (h : o.Texts f.callees words words')
    (hcalls : f.CallsFit) : o.Streams words words' := by
  obtain ⟨is, is', his, hsized, hwords⟩ := h
  refine ⟨is, is', his, fun i hi => ?_, hwords⟩
  rcases hsized i hi with hshort | ⟨g, hg, hlength⟩
  · exact Nat.lt_of_le_of_lt (Nat.succ_le_succ hshort) (by decide)
  · have hfits := hcalls g hg
    rw [Instruction.Fits]
    omega

/-! ## Entry points -/

/-- Entry points that differ in the ids of their functions only. -/
structure Entries (o : Offset) (r r' : ReadyEntry) : Prop where
  model : r'.model = r.model
  mode : r'.mode = r.mode
  name : r'.name = r.name
  function : o.Functions r.function r'.function

/-- If entry points are ready in one run, they are in the other. -/
theorem exists_ready {a : Assembly} {function? function?' : FunctionKey → Option Function}
    (hfunctions : ∀ key, Option.Rel o.Functions (function? key) (function?' key))
    {entries : List EntryPoint} {ready : List ReadyEntry}
    (hready : entries.mapM (ReadyEntry.ofEntry a function?) = .ok ready) : ∃ ready',
      entries.mapM (ReadyEntry.ofEntry a function?') = .ok ready' ∧
        List.Forall₂ o.Entries ready ready' := by
  have hall := mapM_eq_ok.mp hready
  clear hready
  induction hall with
  | nil => exact ⟨[], rfl, .nil⟩
  | cons hr _ ih =>
    obtain ⟨ready', hready', hrest⟩ := ih
    obtain ⟨m, f, mode, hm, hf, hmode, rfl⟩ := ReadyEntry.ofEntry_eq_ok.mp hr
    have hrel := hfunctions (FunctionKey.ofMethod m)
    rw [hf] at hrel
    generalize hf' : function?' (FunctionKey.ofMethod m) = found at hrel
    obtain ⟨hfunction⟩ := hrel
    have hr' := ReadyEntry.ofEntry_eq_ok.mpr ⟨m, _, mode, hm, hf', hmode, rfl⟩
    exact ⟨_, mapM_eq_ok.mpr (.cons hr' (mapM_eq_ok.mp hready')), .cons ⟨rfl, rfl, rfl, hfunction⟩ hrest⟩

theorem Functions.id {f f' : Function} (h : o.Functions f f') : o.Moves f.id f'.id := by
  cases h
  assumption

theorem instructions_entryPoint {name : String} (hname : NulFree name) (model : Word) {f f' : Id}
    (hf : o.Moves f f') {is is' : List Id} (his : List.Forall₂ o.Moves is is') :
    o.Instructions ⟨Op.entryPoint.code, model :: f.raw :: literalString name ++ is.map Id.raw⟩
      ⟨Op.entryPoint.code, model :: f'.raw :: literalString name ++ is'.map Id.raw⟩ := by
  set interface := is.map Id.raw with hinterface
  set k := (literalString name).length with hk
  have hplace : ∀ (function : Word) (rest : List Word) (n : Nat),
      (model :: function :: literalString name ++ rest)[2 + k + n]? = rest[n]? := fun _ rest n => by
    rw [Nat.add_assoc 2 k n, Nat.add_comm 2 (k + n), List.cons_append, List.cons_append,
      List.getElem?_cons_succ, List.getElem?_cons_succ,
      List.getElem?_append_right (Nat.le_add_right k n), ← hk, Nat.add_sub_cancel_left]
  have hpositions := idPositions_entryPoint hname model f.raw interface
  refine instructions_of_ids (.cons hf his) ?_ (congrArg _ (List.ext_getElem? fun p => ?_))
  · rw [Instruction.ids, hpositions, List.filterMap_cons, List.range'_eq_map_range,
      List.filterMap_map, List.map_cons, ← hinterface]
    simp only [Function.comp_def, ← hk, hplace]
    exact congrArg (f.raw :: ·) (Layout.filterMap_getElem?_range _)
  · change _ = ((⟨Op.entryPoint.code, model :: f.raw :: literalString name ++ interface⟩ :
      Instruction).mapIds o.word).operands[p]?
    rw [Instruction.getElem?_operands_mapIds, hpositions, ← hk]
    rcases p with _ | _ | p
    · simp
    · simp [hf.eq]
    -- Words of the name are at no position of an id.
    by_cases hp : p < k
    · have hword : p + 2 ∉ 1 :: List.range' (2 + k) interface.length := by
        rw [List.mem_cons, List.mem_range'_1]
        omega
      simp [hword, List.getElem?_append_left (hk ▸ hp)]
    · obtain ⟨n, rfl⟩ := Nat.exists_eq_add_of_le (Nat.le_of_not_lt hp)
      have hsame : k + n + 2 = 2 + k + n := by omega
      rw [hsame, hplace, hplace, map_raw_eq his, List.getElem?_map]
      refine Option.map_congr fun w hw => ?_
      have hin : n < interface.length := (List.getElem?_eq_some_iff.mp hw).1
      rw [if_pos (List.mem_cons_of_mem _ (List.mem_range'_1.mpr (by omega)))]

/-! ## The interface -/

/-- The global variable that stands for one. -/
def global (o : Offset) (g : GlobalVariable) : GlobalVariable :=
  { g with id := ⟨o.word g.id.raw⟩, valueType := ⟨o.word g.valueType.raw⟩ }

theorem Globals.eq {g g' : GlobalVariable} (h : o.Globals g g') : g' = o.global g := by
  obtain ⟨⟨id'⟩, field', storage', ⟨valueType'⟩⟩ := g'
  obtain ⟨⟨rfl, -⟩, rfl, rfl, ⟨rfl, -⟩⟩ := h
  rfl

/-- Interfaces are in the same order, which is not one of ids. -/
theorem interface_moves {e e' : Emission} (he : o.Emissions e e') :
    List.Forall₂ o.Globals e.interface e'.interface := by
  have hglobals : e'.globals = e.globals.map o.global := by
    have heq : List.Forall₂ (fun g g' => o.global g = g') e.globals e'.globals :=
      he.globals.imp fun _ _ hg => hg.eq.symm
    rw [← List.forall₂_map_left_iff, List.forall₂_eq_eq_eq] at heq
    exact heq.symm
  have hsorted : (e.globals.map o.global).mergeSort GlobalVariable.le =
      (e.globals.mergeSort GlobalVariable.le).map o.global :=
    (List.map_mergeSort (f := o.global) fun _ _ _ _ => rfl).symm
  rw [Emission.interface, Emission.interface, hglobals, hsorted, List.forall₂_map_right_iff,
    List.forall₂_same]
  intro g hg
  obtain ⟨g', -, hrelated⟩ := forall₂_mem_left he.globals (List.mem_mergeSort.mp hg)
  exact hrelated.eq ▸ hrelated

/-! ## The header -/

end Offset

/-- The instruction that declares an entry point. -/
def ReadyEntry.instruction (r : ReadyEntry) (interface : List GlobalVariable) : Instruction :=
  ⟨Op.entryPoint.code, r.model.code :: r.function.id.raw :: literalString r.name ++
    (interface.map GlobalVariable.id).map Id.raw⟩

/-- The instruction that sets the execution mode of an entry point. -/
def ReadyEntry.modeInstruction (r : ReadyEntry) : Instruction :=
  ⟨Op.executionMode.code, [r.function.id.raw, r.mode]⟩

/-- The instructions of a header. -/
def Emission.header (e : Emission) (ready : List ReadyEntry) : List Instruction :=
  [⟨Op.capability.code, [shaderCapability]⟩, ⟨Op.memoryModel.code, [logicalAddressing, glsl450]⟩] ++
    ready.map (fun r => r.instruction e.interface) ++ ready.map ReadyEntry.modeInstruction

theorem Emission.headerSection_eq_flatMap (e : Emission) (ready : List ReadyEntry) :
    e.headerSection ready = (e.header ready).flatMap Instruction.encode := by
  have hmode : ReadyEntry.modeDeclaration = fun r => r.modeInstruction.encode := rfl
  simp [headerSection, header, emit, List.flatMap_map, ReadyEntry.declaration, ReadyEntry.instruction,
    hmode, Function.comp_def]

/-- A header fits the format if the declarations of the entry points do. -/
theorem Emission.header_fits {e : Emission} {ready : List ReadyEntry}
    (hentries : ∀ r ∈ ready, (r.declaration e.interface).length < UInt16.size) :
    ∀ i ∈ e.header ready, i.Fits := by
  have hsize : UInt16.size = 65536 := rfl
  intro i hi
  rcases List.mem_append.mp hi with hi | hi
  · rcases List.mem_append.mp hi with hi | hi
    · rcases List.mem_pair.mp hi with rfl | rfl <;> simp [Instruction.Fits, hsize]
    · obtain ⟨r, hr, rfl⟩ := List.mem_map.mp hi
      simpa [Instruction.Fits, ReadyEntry.instruction, ReadyEntry.declaration, emit,
        Instruction.encode] using hentries r hr
  · obtain ⟨r, -, rfl⟩ := List.mem_map.mp hi
    simp [Instruction.Fits, ReadyEntry.modeInstruction, hsize]

namespace Offset

variable {o : Offset} {e e' : Emission} {ready ready' : List ReadyEntry}

theorem header_moves (he : o.Emissions e e') (hready : List.Forall₂ o.Entries ready ready')
    (hnames : ∀ r ∈ ready, NulFree r.name) :
    List.Forall₂ o.Instructions (e.header ready) (e'.header ready') := by
  have hinterface : List.Forall₂ o.Moves (e.interface.map GlobalVariable.id)
      (e'.interface.map GlobalVariable.id) := by
    rw [List.forall₂_map_left_iff, List.forall₂_map_right_iff]
    exact (interface_moves he).imp fun _ _ hg => hg.id
  have hplain : List.Forall₂ o.Instructions
      [⟨Op.capability.code, [shaderCapability]⟩, ⟨Op.memoryModel.code, [logicalAddressing, glsl450]⟩]
      [⟨Op.capability.code, [shaderCapability]⟩, ⟨Op.memoryModel.code, [logicalAddressing, glsl450]⟩] :=
    .cons (instructions_of_ids .nil rfl rfl) (.cons (instructions_of_ids .nil rfl rfl) .nil)
  -- All entry points are declared before any mode is set.
  refine List.rel_append (List.rel_append hplain ?_) ?_
  · induction hready with
    | nil => exact .nil
    | @cons r r' _ _ hr _ ih =>
      obtain ⟨hname, hrest⟩ := List.forall_mem_cons.mp hnames
      refine .cons ?_ (ih hrest)
      have hentry := instructions_entryPoint hname r.model.code hr.function.id hinterface
      dsimp only [ReadyEntry.instruction]
      rw [hr.model, hr.name]
      exact hentry
  · rw [List.forall₂_map_left_iff, List.forall₂_map_right_iff]
    refine hready.imp fun r r' hr => instructions_of_ids (.cons hr.function.id .nil) rfl ?_
    rw [ReadyEntry.modeInstruction, hr.mode, hr.function.id.eq]
    rfl

/-! ## Functions in their order -/

theorem mem_iff_mem {is is' : List Id} (h : List.Forall₂ o.Moves is is') {i i' : Id}
    (hi : o.Moves i i') : i ∈ is ↔ i' ∈ is' := by
  induction h with
  | nil => simp
  | cons hj _ ih => rw [List.mem_cons, List.mem_cons, ih, hj.eq_iff hi]

/-- The walk over calls meets functions that stand for each other. -/
theorem callOrder_moves {fs fs' : List Function} (h : List.Forall₂ o.Functions fs fs') :
    List.Forall₂ o.Functions (Layout.callOrder fs) (Layout.callOrder fs') := by
  -- The walk is followed for any functions met and any stack.
  suffices hwalk : ∀ met stack met' stack', List.Forall₂ o.Moves met met' →
      List.Forall₂ o.Functions stack stack' →
      List.Forall₂ o.Functions (Layout.callOrderFrom met stack) (Layout.callOrderFrom met' stack') from
    hwalk [] fs [] fs' .nil h
  clear h
  intro met stack
  fun_induction Layout.callOrderFrom met stack with
  | case1 met =>
    rintro met' stack' - (_ | _)
    rw [Layout.callOrderFrom]
    exact .nil
  | case2 met f rest hmet ih =>
    rintro met' stack' hmets (_ | ⟨hf, hrest⟩)
    rw [Layout.callOrderFrom, if_pos ((mem_iff_mem hmets hf.id).mp hmet)]
    exact ih _ _ hmets hrest
  | case3 met f rest hmet ih =>
    rintro met' stack' hmets (_ | ⟨hf, hrest⟩)
    rw [Layout.callOrderFrom, if_neg (mt (mem_iff_mem hmets hf.id).mpr hmet)]
    obtain ⟨hid, -, -, -, hcallees⟩ := id hf
    exact .cons hf (ih _ _ (.cons hid hmets) (List.rel_append hcallees hrest))

/-! ## Modules -/

theorem functionsOf_moves {fs fs' : List Function} (h : List.Forall₂ o.Functions fs fs')
    (hcalls : ∀ f ∈ fs, f.CallsFit) :
    functionsOf (fs'.map Function.body) =
      (functionsOf (fs.map Function.body)).map (Instruction.mapIds o.word) := by
  induction h with
  | nil => rfl
  | cons hf _ ih =>
    obtain ⟨hfirst, hrest⟩ := List.forall_mem_cons.mp hcalls
    obtain ⟨-, -, -, hbody, -⟩ := hf
    simp only [functionsOf, List.map_cons, List.flatMap_cons, List.map_append] at ih ⊢
    rw [ih hrest, (hbody.streams hfirst).decode_eq]

/-- A run writes a module with the same words, wherever its ids begin, if the names of its entry points are
without the zero character. -/
theorem module_moves (he : o.Emissions e e') (hready : List.Forall₂ o.Entries ready ready')
    (hnames : ∀ r ∈ ready, NulFree r.name) (hheader : ∀ i ∈ e.header ready, i.Fits)
    (hdeclarations : o.Streams e.declarations e'.declarations)
    (hannotations : o.Streams e.annotations e'.annotations)
    (hdeclares : ∀ d ∈ Instruction.decode e.declarations, Layout.Declares d)
    (hcalls : ∀ r ∈ ready, ∀ g, r.function.Below g → g.CallsFit) (config : Config) :
    e'.module config ready' = e.module config ready := by
  have hheaders : o.Streams (e.headerSection ready) (e'.headerSection ready') :=
    ⟨_, _, header_moves he hready hnames, hheader, e.headerSection_eq_flatMap ready,
      e'.headerSection_eq_flatMap ready'⟩
  have hfunctions : List.Forall₂ o.Functions (Layout.callOrder (ready.map ReadyEntry.function))
      (Layout.callOrder (ready'.map ReadyEntry.function)) := by
    refine callOrder_moves ?_
    rw [List.forall₂_map_left_iff, List.forall₂_map_right_iff]
    exact hready.imp fun _ _ hr => hr.function
  have hcalled : ∀ f ∈ Layout.callOrder (ready.map ReadyEntry.function), f.CallsFit := by
    intro f hf
    obtain ⟨_, hroot, hbelow⟩ := Layout.below_of_mem_callOrderFrom hf
    obtain ⟨r, hr, rfl⟩ := List.mem_map.mp hroot
    exact hcalls r hr f hbelow
  -- The layout forgets any injective renaming of ids, and this is one.
  have hlaid : Layout.canonicalize .named (e'.sections ready') _ =
      Layout.canonicalize .named (e.sections ready) _ :=
    Layout.canonicalize_of_injective o.word_injective hheaders.decode_eq hannotations.decode_eq
      hdeclarations.decode_eq (functionsOf_moves hfunctions hcalled) hdeclares
  simp only [Emission.module, hlaid]

end Offset

/-! ## Runs -/

/-- Nothing has been requested, but a number of ids are taken. -/
def Session.startAfter (taken : Nat) : Session :=
  State.start ⟨⟨taken⟩, [], [], []⟩

/-- The state of a run after entry points have been constructed, if a number of ids were taken before. -/
def constructedAfter (taken : Nat) (a : Assembly) (requested : List EntryPoint) : Session :=
  ((Session.startAfter taken).run a (Construct.entryPoints a (firstAppearances requested))).2

/-- No instruction of declarations, of functions or for entry points has more than 65535 words. -/
structure Session.InFormat (s : Session) (a : Assembly) (requested : List EntryPoint) : Prop where
  declarations : ∀ i ∈ s.shared.declared, i.Fits
  calls : ∀ key f, s.function? key = some f → ∀ g, f.Below g → g.CallsFit
  entries : ∀ ready, (firstAppearances requested).mapM (ReadyEntry.ofEntry a s.function?) = .ok ready →
    ∀ r ∈ ready, (r.declaration s.shared.interface).length < UInt16.size

section Runs

variable {o : Offset} {a : Assembly} {requested : List EntryPoint} {taken : Nat}
  {s s' : Session}

namespace Offset

theorem sessions_start (o : Offset) : o.Sessions (Session.startAfter 0) (Session.startAfter o.amount) :=
  ⟨fun _ _ _ => .free, (Nat.zero_add _).symm, .nil, .nil, .nil⟩

theorem tasks_entryPoints (a : Assembly) (entries : List EntryPoint) : o.Tasks (fun _ _ => True)
    (Construct.entryPoints a entries) (Construct.entryPoints a entries) := by
  refine .forM fun entry => .bind (.lookup _ _) fun m m' heq => ?_
  subst heq
  exact .bind (.ask (.function (FunctionKey.ofMethod m))) fun _ _ _ => .pure trivial

theorem Slots.value {k k' : Key} {slot : Option (SlotState k.Value)}
    {slot' : Option (SlotState k'.Value)} {R : k.Value → k'.Value → Prop} (h : o.Slots k k' slot slot')
    (hvalues : ∀ v v', o.Values k k' v v' → R v v') :
    Option.Rel R (slot.bind SlotState.value?) (slot'.bind SlotState.value?) := by
  cases h with
  | ready hv => exact .some (hvalues _ _ hv)
  | _ => exact .none

/-- The same functions are ready. -/
theorem Sessions.functions (hs : o.Sessions s s') (key : FunctionKey) :
    Option.Rel o.Functions (s.function? key) (s'.function? key) :=
  (hs.slots _ _ (.function key)).value fun _ _ hv => hv.2

/-- Runs that construct the same entry points end in states that stand for each other. -/
theorem sessions_entryPoints {entries : List EntryPoint} {result result' : Except Error Unit}
    (hrun : (Session.startAfter 0).run a (Construct.entryPoints a entries) = (.returned result, s))
    (hrun' : (Session.startAfter o.amount).run a (Construct.entryPoints a entries) =
      (.returned result', s')) (hlast : s.shared.ids.issued ≤ o.last) : o.Sessions s s' := by
  have hends := execute_moves (factories_move o a) (tasks_entryPoints a entries) o.sessions_start
    (by rw [hrun]; exact hlast)
  rw [hrun, hrun'] at hends
  exact hends.2

end Offset

theorem model_of_checkModels {entries : List EntryPoint} (h : checkModels entries = .ok ()) :
    ∀ entry ∈ entries, entry.model = .fragment := by
  intro entry hentry
  obtain ⟨mode, hmode⟩ := checkModels_eq_ok h entry hentry
  cases hmodel : entry.model
  case fragment => rfl
  all_goals
    rw [hmodel] at hmode
    cases hmode

theorem rel_imp {α β : Type} {R S : α → β → Prop} {x : Option α} {y : Option β} (h : Option.Rel R x y)
    (himp : ∀ v v', x = some v → R v v' → S v v') : Option.Rel S x y := by
  cases h with
  | none => exact .none
  | some h => exact .some (himp _ _ rfl h)

/-- If the ordinary run succeeds then so does one in which ids are taken, and both write the same up to
these ids. -/
theorem compiled_startAfter (hnumbered : a.Numbered)
    (hmodels : ∀ entry ∈ firstAppearances requested, entry.model = .fragment) (config : Config)
    (hrun : Session.start.run a (Construct.entryPoints a (firstAppearances requested)) =
      (.returned (.ok ()), s))
    (hrun' : (Session.startAfter taken).run a (Construct.entryPoints a (firstAppearances requested)) =
      (.returned (.ok ()), s'))
    (hids : s.shared.ids.issued + taken < UInt32.size) (hformat : s.InFormat a requested) :
    ∃ m m', s.shared.assemble a config s.function? (firstAppearances requested) = .ok m ∧
      s'.shared.assemble a config s'.function? (firstAppearances requested) = .ok m' ∧
      (∀ key, Option.Rel (fun f f' => RaisedBy taken f.body f'.body) (s.function? key)
        (s'.function? key)) ∧
      RaisedBy taken s.shared.declarations s'.shared.declarations ∧
      RaisedBy taken s.shared.annotations s'.shared.annotations ∧
      ((∀ entry ∈ requested, ∀ method, a.method? entry.method = some method →
        NulFree method.fullName) → m' = m) := by
  set o : Offset := ⟨taken, s.shared.ids.issued, hids⟩
  have hs : o.Sessions s s' := Offset.sessions_entryPoints (o := o) hrun hrun' le_rfl
  obtain ⟨ready, hassembled⟩ := exists_assemble_eq_ok hnumbered hmodels hrun config
  obtain ⟨ready, hready, -⟩ := Emission.assemble_eq_ok hassembled
  obtain ⟨ready', hready', hentries⟩ := Offset.exists_ready hs.functions hready
  have hcompiled : Compiled a requested config s.shared ready (s.shared.module config ready) :=
    .alone hrun hready
  obtain ⟨state?, harises, -⟩ := hcompiled.exists_arises
  obtain ⟨h, hattributed⟩ := harises.attributed
  have hof : ∀ r ∈ ready, ∃ entry ∈ requested, ∃ m, a.method? entry.method = some m ∧
      r.name = m.fullName ∧ ∃ key, s.function? key = some r.function := by
    intro r hr
    obtain ⟨entry, hentry, hof⟩ := forall₂_mem_left (mapM_eq_ok.mp hready).flip hr
    obtain ⟨m, f, mode, hm, hf, -, rfl⟩ := ReadyEntry.ofEntry_eq_ok.mp hof
    exact ⟨entry, mem_firstAppearances.mp hentry, m, hm, rfl, _, hf⟩
  have hdeclarations : o.Streams s.shared.declarations s'.shared.declarations :=
    ⟨_, _, hs.shared.declared, hformat.declarations, rfl, rfl⟩
  have hannotations : o.Streams s.shared.annotations s'.shared.annotations :=
    ⟨_, _, hs.shared.annotated, hattributed.annotated_fits, rfl, rfl⟩
  refine ⟨s.shared.module config ready, s'.shared.module config ready', by rw [Emission.assemble, hready]; rfl,
    by rw [Emission.assemble, hready']; rfl, fun key => ?_, hdeclarations.raisedBy,
    hannotations.raisedBy, fun hnames => ?_⟩
  · refine rel_imp (hs.functions key) fun f f' hf hrel => ?_
    obtain ⟨-, -, -, hbody, -⟩ := hrel
    exact (hbody.streams (hformat.calls key f hf f .refl)).raisedBy
  · refine Offset.module_moves hs.shared hentries (fun r hr => ?_)
      (Emission.header_fits (hformat.entries ready hready)) hdeclarations hannotations (fun d hd => ?_)
      (fun r hr => ?_) config
    · obtain ⟨entry, hentry, m, hm, hname, -⟩ := hof r hr
      exact hname ▸ hnames entry hentry m hm
    · rw [Emission.declarations, Instruction.decode_flatMap_encode hformat.declarations] at hd
      obtain ⟨declaration, id, rfl⟩ := hattributed.exists_declaration hd
      exact declares_instruction declaration id
    · obtain ⟨_, -, _, -, -, key, hf⟩ := hof r hr
      exact hformat.calls key r.function hf

/-- Compiling fails in the same way when ids are taken before, or it writes the same up to these ids, and
makes the same module. -/
theorem compileFrom_startAfter {a : Assembly} (hbuilt : a.Built) (requested : List EntryPoint)
    (config : Config) {taken : Nat}
    (hids : (constructedAfter 0 a requested).shared.ids.issued + taken < UInt32.size)
    (hformat : (constructedAfter 0 a requested).InFormat a requested) :
    (∃ e, compile a requested config = .returned (.error e) ∧
      compileFrom (.startAfter taken) a requested config = .returned (.error e)) ∨
    ∃ m m', compile a requested config = .returned (.ok m) ∧
      compileFrom (.startAfter taken) a requested config = .returned (.ok m') ∧
      let s := constructedAfter 0 a requested
      let s' := constructedAfter taken a requested
      (∀ key, Option.Rel (fun f f' => RaisedBy taken f.body f'.body) (s.function? key)
        (s'.function? key)) ∧
      RaisedBy taken s.shared.declarations s'.shared.declarations ∧
      RaisedBy taken s.shared.annotations s'.shared.annotations ∧
      ((∀ entry ∈ requested, ∀ method, a.method? entry.method = some method →
        NulFree method.fullName) → m' = m) := by
  unfold compile compileFrom
  dsimp only
  cases hmodels : checkModels (firstAppearances requested) with
  | error fault => exact .inl ⟨_, rfl, rfl⟩
  | ok _ =>
    have hclean := outcome_entryPoints hbuilt.numbered (s := Session.start) (Regime.Clean.start _)
      (firstAppearances requested)
    have hclean' := outcome_entryPoints hbuilt.numbered (s := Session.startAfter taken)
      (Regime.Clean.start _) (firstAppearances requested)
    -- Whether a run fails, and how, does not depend on what its session has taken.
    rcases hclean with ⟨s, hrun, hnone⟩ | ⟨e, s, hrun, hsome, -⟩ <;>
      rcases hclean' with ⟨s', hrun', hnone'⟩ | ⟨e', s', hrun', hsome', -⟩
    · have hs : constructedAfter 0 a requested = s := congrArg Prod.snd hrun
      have hs' : constructedAfter taken a requested = s' := congrArg Prod.snd hrun'
      rw [hs] at hids hformat
      obtain ⟨m, m', hm, hm', hrest⟩ := compiled_startAfter hbuilt.numbered (model_of_checkModels hmodels)
        config hrun hrun' hids hformat
      refine .inr ⟨m, m', ?_, ?_, ?_⟩
      · rw [hrun]
        exact congrArg Outcome.returned hm
      · rw [hrun']
        exact congrArg Outcome.returned hm'
      · rw [hs, hs']
        exact hrest
    · cases hnone.symm.trans hsome'
    · cases hnone'.symm.trans hsome
    · obtain rfl := Option.some.inj (hsome.symm.trans hsome')
      exact .inl ⟨e, by rw [hrun], by rw [hrun']⟩

end Runs

/-! ## A module that is made twice -/

/-- The keys of the functions that have been asked for. -/
def Session.functionKeys (s : Session) : List FunctionKey :=
  s.slots.keys.filterMap fun
    | .function key => some key
    | _ => none

theorem Session.mem_functionKeys (s : Session) {key : FunctionKey} {f : Function}
    (hf : s.function? key = some f) : key ∈ s.functionKeys := by
  refine List.mem_filterMap.mpr ⟨.function key, Construction.Table.mem_keys_iff.mpr ?_, rfl⟩
  obtain ⟨slot, hslot, -⟩ := Option.bind_eq_some_iff.mp hf
  exact Option.isSome_of_eq_some hslot

theorem painter_function? : painterSession.function? ⟨⟨0⟩, []⟩ = some paintFunction ∧
    painterSession.function? ⟨⟨1⟩, [⟨0⟩]⟩ = some shadeFunction :=
  ⟨by decide +kernel, by decide +kernel⟩

theorem painter_constructed : constructedAfter 0 painter painterEntries = painterSession :=
  rfl

theorem painterSession_inFormat : painterSession.InFormat painter painterEntries where
  declarations := painter_inFormat.declarations
  calls key f hf g hbelow := by
    have hpaint : paintFunction.Below g → g.CallsFit :=
      painter_inFormat.calls paintFunction List.mem_cons_self g
    have hkey := painterSession.mem_functionKeys hf
    have hkeys : painterSession.functionKeys = [⟨⟨0⟩, []⟩, ⟨⟨1⟩, [⟨0⟩]⟩] := by decide +kernel
    rw [hkeys] at hkey
    rcases List.mem_pair.mp hkey with rfl | rfl
    · obtain rfl : paintFunction = f := Option.some.inj (painter_function?.1.symm.trans hf)
      exact hpaint hbelow
    · obtain rfl : shadeFunction = f := Option.some.inj (painter_function?.2.symm.trans hf)
      exact hpaint (.head List.mem_cons_self hbelow)
  entries ready hready := by
    have hpainter : (firstAppearances painterEntries).mapM
        (ReadyEntry.ofEntry painter painterSession.function?) = .ok painterReady := by decide +kernel
    obtain rfl := Except.ok.inj (hpainter.symm.trans hready)
    exact painter_inFormat.entries

/-- With a hundred ids taken the two functions get other ids, and the module is the same. -/
theorem painter_startAfter :
    painterSession.shared.ids.issued + 100 < UInt32.size ∧
      painterSession.InFormat painter painterEntries ∧
      (∃ f, (constructedAfter 100 painter painterEntries).function? ⟨⟨0⟩, []⟩ = some f ∧
        RaisedBy 100 paintFunction.body f.body) ∧
      ∃ m, compile painter painterEntries .standard = .returned (.ok m) ∧
        compileFrom (.startAfter 100) painter painterEntries .standard = .returned (.ok m) := by
  have hids : painterSession.shared.ids.issued + 100 < UInt32.size := by decide +kernel
  refine ⟨hids, painterSession_inFormat, ?_⟩
  have hends := compileFrom_startAfter painter_built painterEntries .standard
    (painter_constructed ▸ hids) (painter_constructed ▸ painterSession_inFormat)
  rw [painter_constructed] at hends
  rcases hends with ⟨e, herror, -⟩ | ⟨m, m', hm, hm', hfunctions, -, -, hsame⟩
  · have hnone : compileError? painter painterEntries .standard = none := by decide +kernel
    rw [compileError?, herror] at hnone
    cases hnone
  · have hfunction := hfunctions ⟨⟨0⟩, []⟩
    rw [painter_function?.1] at hfunction
    generalize (constructedAfter 100 painter painterEntries).function? ⟨⟨0⟩, []⟩ = found
      at hfunction ⊢
    obtain ⟨hbody⟩ := hfunction
    exact ⟨⟨_, rfl, hbody⟩, m, hm, hsame painter_nulFree ▸ hm'⟩

end ShaderLowering
