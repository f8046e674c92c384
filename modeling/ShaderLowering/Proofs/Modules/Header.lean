import ShaderLowering.Lowering.Compile
import ShaderLowering.Proofs.Lowering.Declarations
import ShaderLowering.Proofs.Modules.Literals

/-!
# The header of a module

What comes before the functions of a module, with names in the place of ids: the lines that declare the
entry points and their modes (`headerLines`), and those that give variables their locations.  They are
regular as long as the names of the entry points are without the zero character (`entryLine_regular`).

Which variables the interface lists is up to a run; in what order it lists them is not
(`Assembly.interface_eq_of_perm`).
-/

namespace ShaderLowering

open Spirv

variable {a : Assembly} {ν : List Name} {e : Emission} {h : History}

/-! ## The interface -/

namespace Assembly

/-- Order of fields in an interface: by storage class, then by field. -/
def interfaceLe (a : Assembly) (f g : FieldId) : Bool :=
  (a.storage f).code < (a.storage g).code
    || ((a.storage f).code == (a.storage g).code && f.raw ≤ g.raw)

/-- Fields in the order in which an interface lists their variables. -/
def interface (a : Assembly) (fields : List FieldId) : List FieldId :=
  fields.mergeSort a.interfaceLe

variable {f g : FieldId}

theorem interfaceLe_iff : a.interfaceLe f g = true ↔ (a.storage f).code < (a.storage g).code ∨
    ((a.storage f).code = (a.storage g).code ∧ f.raw ≤ g.raw) := by
  simp [interfaceLe]

theorem interfaceLe_trans (f g k : FieldId) (hfg : a.interfaceLe f g = true)
    (hgk : a.interfaceLe g k = true) : a.interfaceLe f k = true := by
  rw [interfaceLe_iff] at hfg hgk ⊢
  rcases hfg with hfg | ⟨heq, hfg⟩
  · rcases hgk with hgk | ⟨heq, -⟩
    · exact .inl (UInt32.lt_trans hfg hgk)
    · exact .inl (heq ▸ hfg)
  · rcases hgk with hgk | ⟨heq', hgk⟩
    · exact .inl (heq ▸ hgk)
    · exact .inr ⟨heq.trans heq', UInt32.le_trans hfg hgk⟩

theorem interfaceLe_total (f g : FieldId) : (a.interfaceLe f g || a.interfaceLe g f) = true := by
  rw [Bool.or_eq_true, interfaceLe_iff, interfaceLe_iff]
  by_cases heq : (a.storage f).code = (a.storage g).code
  · rcases UInt32.le_total f.raw g.raw with hle | hle
    · exact .inl (.inr ⟨heq, hle⟩)
    · exact .inr (.inr ⟨heq.symm, hle⟩)
  · rcases UInt32.lt_or_lt_of_ne heq with hlt | hlt
    · exact .inl (.inl hlt)
    · exact .inr (.inl hlt)

theorem interfaceLe_antisymm (f g : FieldId) (hfg : a.interfaceLe f g = true)
    (hgf : a.interfaceLe g f = true) : f = g := by
  rw [interfaceLe_iff] at hfg hgf
  rcases hfg with hfg | ⟨heq, hfg⟩
  · rcases hgf with hgf | ⟨heq, -⟩
    · exact absurd hgf (UInt32.lt_asymm hfg)
    · exact absurd (heq ▸ hfg) (UInt32.lt_irrefl _)
  · rcases hgf with hgf | ⟨-, hgf⟩
    · exact absurd (heq ▸ hgf) (UInt32.lt_irrefl _)
    · exact congrArg EntityId.mk (UInt32.le_antisymm hfg hgf)

theorem mem_interface {fields : List FieldId} : f ∈ a.interface fields ↔ f ∈ fields :=
  List.mem_mergeSort

/-- The interface forgets in which order variables were exposed. -/
theorem interface_eq_of_perm {fields fields' : List FieldId} (hperm : fields.Perm fields') :
    a.interface fields = a.interface fields' := by
  have hsorted : ∀ fs : List FieldId,
      (a.interface fs).Pairwise fun f g => a.interfaceLe f g = true :=
    List.pairwise_mergeSort interfaceLe_trans interfaceLe_total
  refine List.Perm.eq_of_pairwise (fun f g _ _ => interfaceLe_antisymm f g) (hsorted fields)
    (hsorted fields') ?_
  exact (List.mergeSort_perm fields _).trans (hperm.trans (List.mergeSort_perm fields' _).symm)

end Assembly

/-- The interface of a run lists the variables of the fields that it has exposed. -/
theorem Account.interface_eq (hacc : Account a h e) :
    e.interface = (a.interface (exposed h)).map (a.globalVariable (names h)) := by
  rw [Emission.interface, hacc.globals, Assembly.interface]
  exact (List.map_mergeSort (f := a.globalVariable (names h)) (r := a.interfaceLe)
    (s := GlobalVariable.le) fun _ _ _ _ => rfl).symm

/-! ## Lines -/

/-- The line that declares an entry point. -/
def entryLine (model : ExecutionModel) (key : FunctionKey) (name : String)
    (interface : List FieldId) : Line :=
  ⟨.entryPoint, .word model.code :: .name (.own key 0) ::
    ((literalString name).map .word ++ interface.map fun f => .name (.global f))⟩

/-- The line that sets the execution mode of an entry point. -/
def modeLine (key : FunctionKey) (mode : Word) : Line :=
  ⟨.executionMode, [.name (.own key 0), .word mode]⟩

/-- The line that gives the variable of a field its location. -/
def locationLine (a : Assembly) (field : FieldId) : Line :=
  ⟨.decorate, [.name (.global field), .word locationDecoration,
    .word ((a.location? field).getD 0)]⟩

/-- The lines of the capability and of the memory model. -/
def preamble : List Line :=
  [⟨.capability, [.word shaderCapability]⟩, ⟨.memoryModel, [.word logicalAddressing, .word glsl450]⟩]

/-- The line that declares an entry point, if there is such a method. -/
def EntryPoint.line? (a : Assembly) (interface : List FieldId) (entry : EntryPoint) : Option Line :=
  (a.method? entry.method).map fun m =>
    entryLine entry.model (FunctionKey.ofMethod m) m.fullName interface

/-- The line that sets the execution mode of an entry point, if there is one for its model. -/
def EntryPoint.modeLine? (a : Assembly) (entry : EntryPoint) : Option Line :=
  (a.method? entry.method).bind fun m =>
    entry.model.mode.toOption.map (modeLine (FunctionKey.ofMethod m))

/-- The lines of the header. -/
def headerLines (a : Assembly) (interface : List FieldId) (entries : List EntryPoint) : List Line :=
  preamble ++ entries.filterMap (EntryPoint.line? a interface) ++
    entries.filterMap (EntryPoint.modeLine? a)

/-- The annotations of a run are lines. -/
theorem Account.annotated_eq (hacc : Account a h e) :
    e.annotated = ((decorated h).map (locationLine a)).map (Line.under (names h)) := by
  rw [hacc.annotated, List.map_map]
  rfl

variable {model : ExecutionModel} {key : FunctionKey} {name : String} {interface : List FieldId}
  {mode : Word} {entries : List EntryPoint} {line : Line} {n : Name}

theorem mem_headerLines : line ∈ headerLines a interface entries ↔ line ∈ preamble ∨
    (∃ entry ∈ entries, entry.line? a interface = some line) ∨
      ∃ entry ∈ entries, entry.modeLine? a = some line := by
  simp [headerLines]

theorem names_entryLine :
    (entryLine model key name interface).names = .own key 0 :: interface.map .global := by
  have hwords : ((literalString name).map Operand.word).filterMap Operand.name? = [] := by
    simp [List.filterMap_map, Function.comp_def, Operand.name?]
  have hinterface : (interface.map fun f => Operand.name (.global f)).filterMap Operand.name? =
      interface.map .global := by
    simp [List.filterMap_map, Function.comp_def, Operand.name?]
  change Name.own key 0 :: List.filterMap Operand.name? (_ ++ _) = _
  rw [List.filterMap_append, hwords, hinterface, List.nil_append]

theorem mem_names_modeLine : n ∈ (modeLine key mode).names ↔ n = .own key 0 := by
  simp [modeLine, Line.names, Operand.name?]

theorem mem_names_locationLine {field : FieldId} :
    n ∈ (locationLine a field).names ↔ n = .global field := by
  simp [locationLine, Line.names, Operand.name?]

/-- The ids of an entry point are its function and its interface, if its name is without the zero
character. -/
theorem idPositions_entryPoint {name : String} (hname : NulFree name) (model function : Word)
    (interface : List Word) :
    (⟨Op.entryPoint.code, model :: function :: literalString name ++ interface⟩ :
        Instruction).idPositions =
      1 :: List.range' (2 + (literalString name).length) interface.length := by
  -- The scan for the end of the name stops where the name does.
  have hstart := interfaceStart_literalString hname model function interface
  have hknown : (⟨Op.entryPoint.code, model :: function :: literalString name ++ interface⟩ :
      Instruction).op? = some .entryPoint := Op.ofCode?_code .entryPoint
  have hlength : (model :: function :: literalString name ++ interface).length =
      2 + (literalString name).length + interface.length := by
    simp only [List.length_append, List.length_cons]
    omega
  simp only [Instruction.idPositions, Instruction.nominalIdPositions, hknown, hstart, hlength,
    Nat.add_sub_cancel_left]
  refine List.filter_eq_self.mpr fun p hp => ?_
  rcases List.mem_cons.mp hp with rfl | hp
  · simp only [decide_eq_true_eq]
    omega
  · rw [List.mem_range'_1] at hp
    simpa using hp.2

/-- The names on the line of an entry point are its function and its interface, if its own name is
without the zero character. -/
theorem entryLine_regular (hname : NulFree name) : (entryLine model key name interface).Regular := by
  intro ν
  set k := (literalString name).length with hk
  have hoperands : ((entryLine model key name interface).under ν).operands = model.code ::
      wordOf ν (.own key 0) :: literalString name ++
        interface.map fun f => wordOf ν (.global f) := by
    simp [entryLine, Line.under, Operand.under, Function.comp_def]
  have hpositions : ((entryLine model key name interface).under ν).idPositions =
      1 :: List.range' (2 + k) interface.length := by
    have hentry := idPositions_entryPoint hname model.code (wordOf ν (.own key 0))
      (interface.map fun f => wordOf ν (.global f))
    rw [← hoperands, List.length_map] at hentry
    exact hentry
  have hrange : List.range (entryLine model key name interface).operands.length =
      0 :: 1 :: (List.range' 2 k ++ List.range' (2 + k) interface.length) := by
    have hsame : (entryLine model key name interface).operands.length =
        2 + (k + interface.length) := by
      simp only [entryLine, List.length_append, List.length_cons, List.length_map, ← hk]
      omega
    rw [hsame, List.range'_append_1, List.range_eq_range', Nat.add_comm 2]
    rfl
  -- The operands are the model, the function, the words of the name and the interface.
  have hword : (List.range' 2 k).filter (entryLine model key name interface).hasName = [] := by
    refine List.filter_eq_nil_iff.mpr fun p hp => ?_
    rw [List.mem_range'_1] at hp
    obtain ⟨i, rfl⟩ := Nat.exists_eq_add_of_le hp.1
    have hi : i < (literalString name).length := by omega
    simp [Line.hasName, entryLine, Nat.add_comm 2 i, List.getElem?_append_left, hi, Operand.name?]
  have hinterface : (List.range' (2 + k) interface.length).filter
      (entryLine model key name interface).hasName = List.range' (2 + k) interface.length := by
    refine List.filter_eq_self.mpr fun p hp => ?_
    rw [List.mem_range'_1] at hp
    obtain ⟨i, rfl⟩ := Nat.exists_eq_add_of_le hp.1
    have hi : i < interface.length := by omega
    have hplace : 2 + k + i = k + i + 2 := by omega
    simp [Line.hasName, entryLine, hplace, ← hk, hi, Operand.name?]
  rw [hpositions, hrange, List.filter_cons_of_neg, List.filter_cons_of_pos, List.filter_append,
    hword, hinterface, List.nil_append]
  · rfl
  · simp [Line.hasName, entryLine, Operand.name?]

theorem modeLine_regular : (modeLine key mode).Regular := by
  intro ν
  simp [Instruction.idPositions, Instruction.nominalIdPositions, Line.under, Instruction.op?, modeLine,
    List.filter, Line.hasName, Operand.name?, List.range_succ]

theorem locationLine_regular {field : FieldId} : (locationLine a field).Regular := by
  intro ν
  simp [Instruction.idPositions, Instruction.nominalIdPositions, Line.under, Instruction.op?,
    locationLine, List.filter, Line.hasName, Operand.name?, List.range_succ]

/-- The lines of a header are regular if the names of the entry points are without the zero
character. -/
theorem headerLines_regular (hnames : ∀ entry ∈ entries, ∀ m, a.method? entry.method = some m →
      NulFree m.fullName) :
    ∀ line ∈ headerLines a interface entries, line.Regular := by
  intro line hline
  rcases mem_headerLines.mp hline with hline | ⟨entry, hentry, hline⟩ | ⟨entry, -, hline⟩
  · intro ν
    rcases List.mem_pair.mp hline with rfl | rfl <;>
      simp [Instruction.idPositions, Instruction.nominalIdPositions, Line.under, Instruction.op?,
        Line.hasName, Operand.name?, List.range_succ]
  · obtain ⟨m, hm, rfl⟩ := Option.map_eq_some_iff.mp hline
    exact entryLine_regular (hnames entry hentry m hm)
  · obtain ⟨m, -, hline⟩ := Option.bind_eq_some_iff.mp hline
    obtain ⟨mode, -, rfl⟩ := Option.map_eq_some_iff.mp hline
    exact modeLine_regular

/-! ## Entry points that are ready -/

theorem ReadyEntry.ofEntry_eq_ok {ready? : FunctionKey → Option Function} {entry : EntryPoint}
    {r : ReadyEntry} : ofEntry a ready? entry = .ok r ↔ ∃ m f mode, a.method? entry.method = some m ∧
      ready? (FunctionKey.ofMethod m) = some f ∧ entry.model.mode = .ok mode ∧
      r = ⟨entry.model, mode, m.fullName, f⟩ := by
  unfold ofEntry
  constructor
  · intro h
    split at h
    · cases h
    · next m hm =>
      split at h
      · cases h
      · next f hf =>
        split at h
        · cases h
        · next mode hmode => exact ⟨m, f, mode, hm, hf, hmode, (Except.ok.inj h).symm⟩
  · rintro ⟨m, f, mode, hm, hf, hmode, rfl⟩
    simp only [hm, hf, hmode]

/-- Entry points are ready if each of them is. -/
theorem mapM_eq_ok {α β ε : Type} {F : α → Except ε β} {xs : List α} {ys : List β} :
    xs.mapM F = .ok ys ↔ List.Forall₂ (fun x y => F x = .ok y) xs ys := by
  induction xs generalizing ys with
  | nil =>
    rw [List.mapM_nil]
    constructor
    · intro h
      obtain rfl := Except.ok.inj h
      exact .nil
    · intro h
      cases h
      rfl
  | cons x xs ih =>
    rw [List.mapM_cons]
    constructor
    · intro h
      cases hx : F x with
      | error e =>
        rw [hx] at h
        cases h
      | ok y =>
        cases hxs : xs.mapM F with
        | error e =>
          rw [hx, hxs] at h
          cases h
        | ok zs =>
          rw [hx, hxs] at h
          obtain rfl := Except.ok.inj h
          exact .cons hx (ih.mp hxs)
    · intro h
      cases h with
      | cons hx hxs =>
        rw [hx, ih.mpr hxs]
        rfl

/-- The header of a run is its lines, if its functions have the ids that their keys say. -/
theorem headerSection_eq {ready? : FunctionKey → Option Function} {ready : List ReadyEntry}
    (hready : entries.mapM (ReadyEntry.ofEntry a ready?) = .ok ready)
    (hfunctions : ∀ key f, ready? key = some f → f.id = ident ν (.own key 0))
    (hinterface : e.interface = interface.map (a.globalVariable ν)) :
    e.headerSection ready = wordsAt ν (headerLines a interface entries) := by
  have hlines : ready.flatMap (fun r => r.declaration e.interface) =
        wordsAt ν (entries.filterMap (EntryPoint.line? a interface)) ∧
      ready.flatMap ReadyEntry.modeDeclaration =
        wordsAt ν (entries.filterMap (EntryPoint.modeLine? a)) := by
    have hall := mapM_eq_ok.mp hready
    -- Models and modes are written in separate passes, each in the order of the entry points.
    clear hready
    induction hall with
    | nil => exact ⟨rfl, rfl⟩
    | @cons entry r entries ready hr _ ih =>
      obtain ⟨m, f, mode, hm, hf, hmode, rfl⟩ := ReadyEntry.ofEntry_eq_ok.mp hr
      have hline : entry.line? a interface =
          some (entryLine entry.model (FunctionKey.ofMethod m) m.fullName interface) := by
        rw [EntryPoint.line?, hm]
        rfl
      have hmodeLine : entry.modeLine? a = some (modeLine (FunctionKey.ofMethod m) mode) := by
        rw [EntryPoint.modeLine?, hm, hmode]
        rfl
      rw [List.flatMap_cons, List.flatMap_cons, List.filterMap_cons_some hline,
        List.filterMap_cons_some hmodeLine, ih.1, ih.2]
      refine ⟨congrArg (· ++ _) ?_, congrArg (· ++ _) ?_⟩
      · simp [ReadyEntry.declaration, emit, entryLine, Line.under, Operand.under, hinterface,
          hfunctions _ f hf, Assembly.globalVariable, Function.comp_def]
      · simp [ReadyEntry.modeDeclaration, emit, modeLine, Line.under, Operand.under,
          hfunctions _ f hf]
  rw [Emission.headerSection, hlines.1, hlines.2, headerLines, wordsAt_append, wordsAt_append]
  rfl

end ShaderLowering
