import ShaderLowering.Proofs.Modules.Text

/-!
# What instructions define and use

The result of an instruction is the id that it gives a meaning to; every other id that it holds is a use.
On a line of a function a use is of one of three kinds (`Specialized.InScope`): what is declared for the
module as a whole, an id that the function has taken before, or the callee of a call.

A function takes its ids one after another, and each of them is the result of a line: `Scoped` follows
the lines of a function and counts.  The whole function is scoped (`Specialized.scoped_tail`), so its
results are its own ids, each once and in order (`Scoped.filterMap_defines?`).
-/

namespace ShaderLowering

open Spirv

namespace Spirv

/-- Where instructions with an opcode have their result: types and labels begin with it, and whatever
else has a result has its type before it. -/
def Op.resultPosition? : Op → Option Nat
  | .typeVoid | .typeBool | .typeInt | .typeFloat | .typeVector | .typeMatrix | .typeStruct
  | .typePointer | .typeFunction | .label => some 0
  | .constantTrue | .constant | .function | .functionParameter | .functionCall | .variable
  | .load => some 1
  | .nop | .memoryModel | .entryPoint | .executionMode | .capability | .functionEnd | .store
  | .decorate | .ret | .returnValue => none

namespace Instruction

/-- The position of the result, if the opcode has one. -/
def resultPosition? (i : Instruction) : Option Nat :=
  i.op?.bind Op.resultPosition?

/-- The id that an instruction gives a meaning to. -/
def defines? (i : Instruction) : Option Word :=
  i.resultPosition?.bind (i.operands[·]?)

/-- The ids that an instruction refers to: all that it holds, apart from its result. -/
def uses (i : Instruction) : List Word :=
  (i.idPositions.filter fun position => i.resultPosition? ≠ some position).filterMap (i.operands[·]?)

/-- The instruction gives a meaning to an id that only its function knows: it is a parameter, a label, a
variable of the function, or something that is loaded or returned by a call. -/
def IsLocal (i : Instruction) : Prop :=
  i.op? ∈ [some Op.functionParameter, some .label, some .load, some .functionCall] ∨
    (i.op? = some .variable ∧ i.operands[2]? = some StorageClass.function.code)

/-- The instruction gives a meaning to an id for the module as a whole: it declares a type, a constant or
a global variable. -/
def IsDeclaration (i : Instruction) : Prop :=
  i.op? ∈ [some Op.typeVoid, some .typeBool, some .typeInt, some .typeFloat, some .typeVector,
    some .typeMatrix, some .typeStruct, some .typePointer, some .typeFunction, some .constantTrue,
    some .constant] ∨ (i.op? = some .variable ∧ i.operands[2]? ≠ some StorageClass.function.code)

instance (i : Instruction) : Decidable i.IsDeclaration :=
  inferInstanceAs (Decidable (_ ∨ _))

/-- Whatever is a declaration or local has a result. -/
theorem resultPosition?_isSome {i : Instruction} (h : i.IsDeclaration ∨ i.IsLocal) :
    i.resultPosition?.isSome := by
  rw [resultPosition?]
  rcases h with (hop | ⟨hop, -⟩) | (hop | ⟨hop, -⟩)
  · generalize i.op? = op at hop
    revert op
    decide
  · rw [hop]
    rfl
  · generalize i.op? = op at hop
    revert op
    decide
  · rw [hop]
    rfl

theorem IsDeclaration.not_isLocal {i : Instruction} (h : i.IsDeclaration) : ¬i.IsLocal := by
  rintro (hop | ⟨hop, hstorage⟩) <;> rcases h with hop' | ⟨hop', hstorage'⟩
  · generalize i.op? = op at hop hop'
    revert op
    decide
  · rw [hop'] at hop
    revert hop
    decide
  · rw [hop] at hop'
    revert hop'
    decide
  · exact hstorage' hstorage

end Instruction

end Spirv

/-! ## Results and uses on lines -/

namespace Line

variable {line : Line} {ν : List Name}

/-- The name that a line gives a meaning to. -/
def defines? (line : Line) : Option Name :=
  (line.op.resultPosition?.bind (line.operands[·]?)).bind Operand.name?

/-- The names that a line refers to: all that are on it, apart from its result. -/
def uses (line : Line) : List Name :=
  (match line.op.resultPosition? with
    | none => line.operands
    | some position => line.operands.eraseIdx position).filterMap Operand.name?

/-- A line gives a meaning to a name that only its function knows. -/
def IsLocal (line : Line) : Prop :=
  line.op ∈ [Op.functionParameter, .label, .load, .functionCall] ∨
    (line.op = .variable ∧ line.operands[2]? = some (.word StorageClass.function.code))

theorem resultPosition?_instruction (number : Name → Word) (line : Line) :
    (line.instruction number).resultPosition? = line.op.resultPosition? := by
  rw [Instruction.resultPosition?, op?_instruction, Option.bind_some]

theorem IsLocal.instruction (h : line.IsLocal) (number : Name → Word) :
    (line.instruction number).IsLocal := by
  rcases h with hop | ⟨hop, hstorage⟩
  · left
    rw [op?_instruction]
    generalize line.op = op at hop
    revert op
    decide
  · right
    rw [op?_instruction, hop]
    exact ⟨rfl, by simp [Line.instruction, hstorage]⟩

/-- The result of a line is a name if its opcode has a result at all. -/
def Resultful (line : Line) : Prop :=
  ∀ position, line.op.resultPosition? = some position → ∃ n, line.operands[position]? = some (.name n)

theorem Resultful.defines? (h : line.Resultful) (number : Name → Word) :
    (line.instruction number).defines? = line.defines?.map number := by
  rw [Instruction.defines?, resultPosition?_instruction, Line.defines?]
  cases hposition : line.op.resultPosition? with
  | none => rfl
  | some position =>
    obtain ⟨n, hn⟩ := h position hposition
    simp [Line.instruction, hn, Operand.name?]

theorem Resultful.filterMap {lines : List Line} (h : ∀ line ∈ lines, line.Resultful)
    (number : Name → Word) : (lines.map (Line.instruction number)).filterMap Instruction.defines? =
      (lines.filterMap Line.defines?).map number := by
  rw [List.filterMap_map, List.map_filterMap]
  exact List.filterMap_congr fun line hline => (h line hline).defines? number

theorem InBody.resultful (h : line.InBody) : line.Resultful := by
  intro position hposition
  cases h <;> simp only [Op.resultPosition?, Option.some.injEq, reduceCtorEq] at hposition <;>
    subst hposition <;> exact ⟨_, rfl⟩

/-- What is local by its instruction is local by its line. -/
theorem InBody.isLocal (h : line.InBody) {number : Name → Word}
    (hlocal : (line.instruction number).IsLocal) : line.IsLocal := by
  rw [Instruction.IsLocal, op?_instruction] at hlocal
  cases h with
  | «variable» type result storage =>
    rcases hlocal with hop | ⟨-, hstorage⟩
    · simp at hop
    · exact .inr ⟨rfl, congrArg (Option.map Operand.word) hstorage⟩
  | parameter | label | load | call => exact .inl (by simp)
  | function | store | ret | returnValue | functionEnd => simp at hlocal

theorem mem_uses {n : Name} : n ∈ line.uses ↔ ∃ position,
    line.op.resultPosition? ≠ some position ∧ line.operands[position]? = some (.name n) := by
  have hname : ∀ o : Operand, o.name? = some n ↔ o = .name n := fun o => by
    cases o <;> simp [Operand.name?]
  rw [uses, List.mem_filterMap]
  simp only [hname, exists_eq_right]
  cases hposition : line.op.resultPosition? with
  | none => simp [List.mem_iff_getElem?]
  | some result =>
    rw [List.mem_eraseIdx_iff_getElem?]
    simp only [ne_eq, Option.some.injEq, eq_comm]

theorem mem_names_of_mem_uses {n : Name} (hn : n ∈ line.uses) : n ∈ line.names := by
  obtain ⟨position, -, hoperand⟩ := mem_uses.mp hn
  exact List.mem_filterMap.mpr ⟨.name n, List.mem_of_getElem? hoperand, rfl⟩

theorem mem_names_of_defines? {n : Name} (hn : line.defines? = some n) : n ∈ line.names := by
  obtain ⟨o, ho, hname⟩ := Option.bind_eq_some_iff.mp hn
  obtain ⟨position, -, ho⟩ := Option.bind_eq_some_iff.mp ho
  exact List.mem_filterMap.mpr ⟨o, List.mem_of_getElem? ho, hname⟩

/-- What is on a line is its result or used by it. -/
theorem defines_or_uses {n : Name} (hn : n ∈ line.names) : line.defines? = some n ∨ n ∈ line.uses := by
  obtain ⟨o, ho, hname⟩ := List.mem_filterMap.mp hn
  obtain ⟨position, hposition⟩ := List.mem_iff_getElem?.mp ho
  obtain rfl : o = .name n := by cases o <;> simp_all [Operand.name?]
  by_cases hresult : line.op.resultPosition? = some position
  · left
    simp [defines?, hresult, hposition, Operand.name?]
  · exact .inr (mem_uses.mpr ⟨position, hresult, hposition⟩)

/-- What the instruction of a regular line uses are the numbers of what the line uses. -/
theorem Regular.exists_of_mem_uses (h : line.Regular) (r : Word → Word) {w : Word}
    (hw : w ∈ (line.instruction (r ∘ wordOf ν)).uses) : ∃ n ∈ line.uses, w = r (wordOf ν n) := by
  obtain ⟨position, hposition, hoperand⟩ := List.mem_filterMap.mp hw
  obtain ⟨hid, hne⟩ := List.mem_filter.mp hposition
  rw [resultPosition?_instruction, decide_eq_true_eq] at hne
  rw [← h.mapIds_eq, Instruction.idPositions_mapIds, h ν] at hid
  obtain ⟨-, hname⟩ := List.mem_filter.mp hid
  rw [hasName] at hname
  obtain ⟨n, hn⟩ := Option.isSome_iff_exists.mp hname
  obtain ⟨o, ho, hn⟩ := Option.bind_eq_some_iff.mp hn
  cases o with
  | word w => cases hn
  | name n' =>
    refine ⟨n', mem_uses.mpr ⟨position, hne, ho⟩, ?_⟩
    simpa [Line.instruction, ho] using hoperand.symm

end Line

namespace Name

variable {a : Assembly} {n m : Name} {line : Line}

/-- The line that declares a name has it for its result and refers to its parts. -/
theorem defines?_of_form? (h : n.form? a = some line) :
    line.defines? = some n ∧ line.Resultful ∧ ∀ m ∈ line.uses, m ∈ n.parts a := by
  cases n with
  | value type =>
    cases type <;> obtain rfl := Option.some.inj h <;> refine ⟨rfl, ?_, ?_⟩ <;>
      simp [Line.Resultful, Line.uses, Op.resultPosition?, Operand.name?, parts, List.filterMap_map,
        Function.comp_def]
  | own key number => cases h
  | _ =>
    obtain rfl := Option.some.inj h
    refine ⟨rfl, ?_, ?_⟩ <;>
      simp [Line.Resultful, Line.uses, Op.resultPosition?, Operand.name?, parts, List.filterMap_map,
        Function.comp_def]

/-- Types are declared for the module as a whole. -/
theorem isSome_form?_value (type : ValueType) : ((Name.value type).form? a).isSome := by
  cases type <;> rfl

/-- What declares a name is a declaration. -/
theorem isDeclaration_of_form? (h : n.form? a = some line) (number : Name → Word) :
    (line.instruction number).IsDeclaration := by
  rw [Instruction.IsDeclaration, Line.op?_instruction]
  cases n with
  | value type => cases type <;> obtain rfl := Option.some.inj h <;> exact .inl (by simp)
  | global field =>
    obtain rfl := Option.some.inj h
    exact .inr ⟨rfl, by simpa [Line.instruction] using a.code_storage_ne field⟩
  | own key number => cases h
  | _ =>
    obtain rfl := Option.some.inj h
    exact .inl (by simp)

end Name

/-! ## Scopes -/

namespace Specialized

variable (a : Assembly) (p : Specialized)

/-- What a line of a function may refer to, where the function has taken so many ids before: what is
declared for the module as a whole, an id of the function other than its own, or the callee of a
call. -/
inductive InScope (number : Nat) (line : Line) (n : Name) : Prop
  | declared (hdeclared : (n.form? a).isSome) : InScope number line n
  | taken {m : Nat} (hpos : 0 < m) (hlt : m < number) (heq : n = p.own m) : InScope number line n
  | callee {callee : FunctionKey} (hop : line.op = .functionCall)
      (hoperand : line.operands[2]? = some (.name n))
      (hcallee : callee ∈ p.calledBy a p.method.code.instructions) (heq : n = .own callee 0) :
      InScope number line n

/-- Lines in the scope of a function that has taken so many ids before the first line and so many after
the last: what a line defines is the next id of the function, and what it uses is in scope. -/
inductive Scoped : Nat → List Line → Nat → Prop
  | nil (number : Nat) : Scoped number [] number
  | uses {number total : Nat} {line : Line} {rest : List Line} (hdefines : line.defines? = none)
      (huses : ∀ n ∈ line.uses, p.InScope a number line n) (hrest : Scoped number rest total) :
      Scoped number (line :: rest) total
  | defines {number total : Nat} {line : Line} {rest : List Line}
      (hdefines : line.defines? = some (p.own number)) (hlocal : line.IsLocal)
      (huses : ∀ n ∈ line.uses, p.InScope a number line n)
      (hrest : Scoped (number + 1) rest total) : Scoped number (line :: rest) total

variable {a : Assembly} {p : Specialized} {number total middle : Nat} {lines lines' : List Line}
  {line : Line} {n : Name} {op : Il.Operation}

theorem InScope.later (h : p.InScope a number line n) (hle : number ≤ total) :
    p.InScope a total line n := by
  cases h with
  | declared hdeclared => exact .declared hdeclared
  | taken hpos hlt heq => exact .taken hpos (Nat.lt_of_lt_of_le hlt hle) heq
  | callee hop hoperand hcallee heq => exact .callee hop hoperand hcallee heq

namespace Scoped

theorem append (h : p.Scoped a number lines middle) (h' : p.Scoped a middle lines' total) :
    p.Scoped a number (lines ++ lines') total := by
  induction h with
  | nil => exact h'
  | uses hdefines huses _ ih => exact .uses hdefines huses (ih h')
  | defines hdefines hlocal huses _ ih => exact .defines hdefines hlocal huses (ih h')

/-- Lines one after another are in scope part by part. -/
theorem split (h : p.Scoped a number (lines ++ lines') total) :
    ∃ middle, p.Scoped a number lines middle ∧ p.Scoped a middle lines' total := by
  induction lines generalizing number with
  | nil => exact ⟨number, .nil number, h⟩
  | cons line lines ih =>
    cases h with
    | uses hdefines huses hrest =>
      obtain ⟨middle, hlines, hlines'⟩ := ih hrest
      exact ⟨middle, .uses hdefines huses hlines, hlines'⟩
    | defines hdefines hlocal huses hrest =>
      obtain ⟨middle, hlines, hlines'⟩ := ih hrest
      exact ⟨middle, .defines hdefines hlocal huses hlines, hlines'⟩

theorem le (h : p.Scoped a number lines total) : number ≤ total := by
  induction h with
  | nil => exact Nat.le_refl _
  | uses _ _ _ ih => exact ih
  | defines _ _ _ _ ih => exact Nat.le_of_succ_le ih

/-- The results of the lines are the ids that are taken, each once and in order. -/
theorem filterMap_defines? (h : p.Scoped a number lines total) :
    lines.filterMap Line.defines? = (List.range' number (total - number)).map p.own := by
  induction h with
  | nil => simp
  | uses hdefines _ _ ih => rw [List.filterMap_cons_none hdefines, ih]
  | @defines number total line rest hdefines _ _ hrest ih =>
    have hle := hrest.le
    have hcount : total - number = (total - (number + 1)) + 1 := by omega
    rw [List.filterMap_cons_some hdefines, ih, hcount, List.range'_succ, List.map_cons]

/-- What defines an id in scope is local to the function. -/
theorem isLocal (h : p.Scoped a number lines total) (hline : line ∈ lines)
    (hdefines : line.defines? = some n) : line.IsLocal := by
  induction h with
  | nil => cases hline
  | uses hnone _ _ ih =>
    rcases List.mem_cons.mp hline with rfl | hline
    · rw [hnone] at hdefines
      cases hdefines
    · exact ih hline
  | defines _ hlocal _ _ ih =>
    rcases List.mem_cons.mp hline with rfl | hline
    · exact hlocal
    · exact ih hline

/-- What a line uses is declared for the module, the result of an earlier line, or a callee. -/
theorem inScope (h : p.Scoped a 1 (lines ++ line :: lines') total) (hn : n ∈ line.uses) :
    (n.form? a).isSome ∨ n ∈ lines.filterMap Line.defines? ∨
      (line.op = .functionCall ∧ line.operands[2]? = some (.name n) ∧
        ∃ callee ∈ p.calledBy a p.method.code.instructions, n = .own callee 0) := by
  obtain ⟨middle, hbefore, hafter⟩ := h.split
  have hscope : p.InScope a middle line n := by
    cases hafter with
    | uses _ huses _ => exact huses n hn
    | defines _ _ huses _ => exact huses n hn
  cases hscope with
  | declared hdeclared => exact .inl hdeclared
  | @taken m hpos hlt heq =>
    refine .inr (.inl ?_)
    rw [hbefore.filterMap_defines?, heq]
    refine List.mem_map_of_mem (List.mem_range'_1.mpr ⟨hpos, ?_⟩)
    omega
  | callee hop hoperand hcallee heq => exact .inr (.inr ⟨hop, hoperand, _, hcallee, heq⟩)

end Scoped

/-! ## The lines of a function are in its scope -/

/-- The variable behind a slot is in scope once all slots are declared. -/
theorem inScope_pointer {slot : Il.Slot} (hslot : p.HasSlot slot) (hnumber : p.reserved ≤ number) :
    p.InScope a number line (p.pointer slot.toNat) := by
  rw [HasSlot] at hslot
  rw [reserved] at hnumber
  refine .taken (m := 2 + p.key.parameters.length + slot.toNat) ?_ ?_ rfl
  · omega
  · omega

theorem scoped_loadLine {slot : Il.Slot} (hslot : p.HasSlot slot) (hnumber : p.reserved ≤ number)
    (hrest : p.Scoped a (number + 1) lines total) :
    p.Scoped a number (p.loadLine a slot number :: lines) total := by
  refine .defines rfl (.inl (by simp [loadLine])) (fun n hn => ?_) hrest
  rcases List.mem_pair.mp hn with rfl | rfl
  · exact .declared (Name.isSome_form?_value _)
  · exact inScope_pointer hslot hnumber

theorem scoped_storeLine {slot : Il.Slot} {value : Name} (hslot : p.HasSlot slot)
    (hnumber : p.reserved ≤ number) (hvalue : p.InScope a number (p.storeLine slot value) value)
    (hrest : p.Scoped a number lines total) :
    p.Scoped a number (p.storeLine slot value :: lines) total := by
  refine .uses rfl (fun n hn => ?_) hrest
  rcases List.mem_pair.mp hn with rfl | rfl
  · exact inScope_pointer hslot hnumber
  · exact hvalue

/-- A function has taken ids before its operations. -/
theorem reserved_pos : 0 < p.reserved := by
  rw [reserved]
  omega

theorem inScope_last (hnumber : p.reserved ≤ number) :
    p.InScope a (number + 1) line (p.own number) :=
  .taken (Nat.lt_of_lt_of_le reserved_pos hnumber) (Nat.lt_succ_self number) rfl

theorem scoped_argumentLines {slots : List Il.Slot} (hslots : ∀ slot ∈ slots, p.HasSlot slot)
    (hnumber : p.reserved ≤ number) :
    p.Scoped a number (p.argumentLines a slots number) (number + slots.length) := by
  induction slots generalizing number with
  | nil => exact .nil number
  | cons slot slots ih =>
    have hrest := ih (fun s hs => hslots s (List.mem_cons_of_mem slot hs))
      (Nat.le_succ_of_le hnumber : p.reserved ≤ number + 1)
    have htotal : number + 1 + slots.length = number + (slots.length + 1) := by omega
    rw [htotal] at hrest
    exact scoped_loadLine (hslots slot List.mem_cons_self) hnumber hrest

theorem scoped_callLines {result : Option Il.Slot} {callee : FunctionKey} {slots : List Il.Slot}
    (hcallee : callee ∈ p.calledBy a p.method.code.instructions)
    (hslots : ∀ slot ∈ slots, p.HasSlot slot) (hresult : ∀ slot ∈ result, p.HasSlot slot)
    (hnumber : p.reserved ≤ number) :
    p.Scoped a number (p.callLines a number result callee slots) (number + (slots.length + 1)) := by
  have hlater : p.reserved ≤ number + slots.length := Nat.le_add_right_of_le hnumber
  have hstore : p.Scoped a (number + slots.length + 1)
      (result.toList.map fun slot => p.storeLine slot (p.own (number + slots.length)))
      (number + slots.length + 1) := by
    cases result with
    | none => exact .nil _
    | some slot =>
      exact scoped_storeLine (hresult slot rfl) (Nat.le_succ_of_le hlater) (inScope_last hlater)
        (.nil _)
  refine (scoped_argumentLines hslots hnumber).append (.defines rfl (.inl (by simp [callLine])) ?_
    hstore)
  intro n hn
  obtain ⟨position, hposition, hoperand⟩ := Line.mem_uses.mp hn
  -- Result type, result, callee and arguments are the operands of a call.
  rcases position with _ | _ | _ | position
  · obtain rfl := Operand.name.inj (Option.some.inj hoperand)
    exact .declared (Name.isSome_form?_value _)
  · exact absurd rfl hposition
  · obtain rfl := Operand.name.inj (Option.some.inj hoperand)
    exact .callee rfl rfl hcallee rfl
  · have hmem := List.mem_of_getElem? (l := (List.range' number slots.length).map fun n =>
      Operand.name (p.own n)) hoperand
    obtain ⟨m, hm, heq⟩ := List.mem_map.mp hmem
    obtain rfl := Operand.name.inj heq
    rw [List.mem_range'_1] at hm
    exact .taken (Nat.lt_of_lt_of_le (Nat.lt_of_lt_of_le reserved_pos hnumber) hm.1) hm.2 rfl

/-- The lines of an operation are in scope. -/
theorem scoped_operationLines (hrefers : p.Refers a op)
    (hcalled : ∀ callee ∈ p.called a op, callee ∈ p.calledBy a p.method.code.instructions)
    (hnumber : p.reserved ≤ number) :
    p.Scoped a number (p.operationLines a number op) (number + op.taken) := by
  have hlater : p.reserved ≤ number + 1 := Nat.le_succ_of_le hnumber
  have hglobal : ∀ wire : UInt64, (EntityId.ofWire? wire : Option FieldId).isSome →
      ((p.globalName wire).form? a).isSome := by
    intro wire hwire
    obtain ⟨field, hfield⟩ := Option.isSome_iff_exists.mp hwire
    rw [globalName, hfield]
    rfl
  -- Values are loaded first, so what an operation uses was taken just before or is declared.
  cases op with
  | call result wire slots =>
    obtain ⟨callee, hcallee⟩ := Option.isSome_iff_exists.mp hrefers.1
    rw [operationLines, hcallee]
    exact scoped_callLines (hcalled callee (by simp [called, hcallee])) hrefers.2.1 hrefers.2.2
      hnumber
  | ret => exact .uses rfl (fun n hn => by cases hn) (.nil _)
  | returnValue value =>
    obtain ⟨slot, rfl, hslot⟩ := hrefers
    refine scoped_loadLine hslot hnumber (.uses rfl (fun n hn => ?_) (.nil _))
    obtain rfl := List.mem_singleton.mp hn
    exact inScope_last hnumber
  | load destination source =>
    exact scoped_loadLine hrefers.2 hnumber (scoped_storeLine hrefers.1 hlater (inScope_last hnumber)
      (.nil _))
  | loadField destination wire =>
    refine .defines rfl (.inl (by simp)) (fun n hn => ?_) (scoped_storeLine hrefers.2 hlater
      (inScope_last hnumber) (.nil _))
    rcases List.mem_pair.mp hn with rfl | rfl
    · exact .declared (Name.isSome_form?_value _)
    · exact .declared (hglobal wire hrefers.1)
  | storeField wire source =>
    refine scoped_loadLine hrefers.2 hnumber (.uses rfl (fun n hn => ?_) (.nil _))
    rcases List.mem_pair.mp hn with rfl | rfl
    · exact .declared (hglobal wire hrefers.1)
    · exact inScope_last hnumber
  | loadUInt32 destination bits | loadFloat32 destination bits =>
    exact scoped_storeLine hrefers hnumber (.declared rfl) (.nil _)

theorem scoped_codeLines {code : List Il.Instruction}
    (hcode : ∀ i ∈ code, ∃ op, i.decode = .ok op ∧ p.Refers a op)
    (hcalled : ∀ callee ∈ p.calledBy a code, callee ∈ p.calledBy a p.method.code.instructions)
    (hnumber : p.reserved ≤ number) :
    p.Scoped a number (p.codeLines a number code) (number + Il.taken code) := by
  induction code generalizing number with
  | nil => exact .nil number
  | cons i rest ih =>
    obtain ⟨op, hdecode, hrefers⟩ := hcode i List.mem_cons_self
    rw [calledBy, hdecode] at hcalled
    have hrest := ih (fun j hj => hcode j (List.mem_cons_of_mem i hj))
      (fun callee hcallee => hcalled callee (List.mem_append_right _ hcallee))
      (Nat.le_add_right_of_le hnumber : p.reserved ≤ number + op.taken)
    have hfirst := scoped_operationLines hrefers
      (fun callee hcallee => hcalled callee (List.mem_append_left _ hcallee)) hnumber
    rw [codeLines, Il.taken, hdecode]
    rw [Nat.add_assoc] at hrest
    exact hfirst.append hrest

theorem scoped_parameterLines (ids : List TypeId) (position : Nat) :
    p.Scoped a (1 + position) (p.parameterLines a ids position) (1 + position + ids.length) := by
  induction ids generalizing position with
  | nil => exact .nil _
  | cons id ids ih =>
    have hrest := ih (position + 1)
    have htotal : 1 + (position + 1) + ids.length = 1 + position + (ids.length + 1) := by omega
    rw [htotal] at hrest
    refine .defines rfl (.inl (by simp [parameterLine])) (fun n hn => ?_) hrest
    obtain rfl := List.mem_singleton.mp hn
    exact .declared (Name.isSome_form?_value _)

theorem scoped_slotLines (ids : List TypeId) (position : Nat) :
    p.Scoped a (2 + p.key.parameters.length + position) (p.slotLines a ids position)
      (2 + p.key.parameters.length + position + ids.length) := by
  induction ids generalizing position with
  | nil => exact .nil _
  | cons id ids ih =>
    have hrest := ih (position + 1)
    have htotal : 2 + p.key.parameters.length + (position + 1) + ids.length =
        2 + p.key.parameters.length + position + (ids.length + 1) := by omega
    rw [htotal] at hrest
    refine .defines rfl (.inr ⟨rfl, rfl⟩) (fun n hn => ?_) hrest
    obtain rfl := List.mem_singleton.mp hn
    exact .declared rfl

theorem scoped_arrivalLines : p.Scoped a p.reserved p.arrivalLines p.reserved := by
  have hall : ∀ positions : List Nat,
      (∀ i ∈ positions, i < p.slotTypes.length ∧ i < p.key.parameters.length) →
        p.Scoped a p.reserved (positions.map p.arrivalLine) p.reserved := by
    intro positions hpositions
    induction positions with
    | nil => exact .nil _
    | cons i positions ih =>
      obtain ⟨hslot, hparameter⟩ := hpositions i List.mem_cons_self
      refine .uses rfl (fun n hn => ?_) (ih fun j hj => hpositions j (List.mem_cons_of_mem i hj))
      rcases List.mem_pair.mp hn with rfl | rfl
      · refine .taken (m := 2 + p.key.parameters.length + i) ?_ ?_ rfl
        · omega
        · rw [reserved]
          omega
      · refine .taken (m := 1 + i) ?_ ?_ rfl
        · omega
        · rw [reserved]
          omega
  refine hall _ fun i hi => ?_
  rw [List.mem_range] at hi
  omega

/-- After its first line a function is in its own scope. -/
theorem scoped_tail (hcode : ∀ i ∈ p.method.code.instructions, ∃ op, i.decode = .ok op ∧
    p.Refers a op) : p.Scoped a 1 (p.lines a).tail p.taken := by
  have hparameters : p.Scoped a 1 (p.parameterLines a p.key.parameters 0)
      (1 + p.key.parameters.length) := scoped_parameterLines p.key.parameters 0
  have hlabel : p.Scoped a (1 + p.key.parameters.length) [p.labelLine]
      (2 + p.key.parameters.length) := by
    have hnext : 2 + p.key.parameters.length = 1 + p.key.parameters.length + 1 := by omega
    rw [hnext]
    exact .defines rfl (.inl (by simp [labelLine])) (fun n hn => by cases hn) (.nil _)
  have hslots : p.Scoped a (2 + p.key.parameters.length) (p.slotLines a p.slotTypes 0) p.reserved :=
    scoped_slotLines p.slotTypes 0
  have hoperations : p.Scoped a p.reserved
      (p.codeLines a p.reserved p.method.code.instructions) p.taken :=
    scoped_codeLines hcode (fun _ hcallee => hcallee) (Nat.le_refl p.reserved)
  have hend : p.Scoped a p.taken [⟨.functionEnd, []⟩] p.taken :=
    .uses rfl (fun n hn => by cases hn) (.nil _)
  exact ((((hparameters.append hlabel).append hslots).append
    scoped_arrivalLines).append hoperations).append hend

end Specialized

end ShaderLowering
