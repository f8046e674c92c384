import ShaderLowering.Proofs.Lowering.Constructible
import ShaderLowering.Proofs.Lowering.Names

/-!
# The form of a function

What a function looks like once it is lowered, with names in the place of ids.  A function takes its
own ids in a fixed order: its own id, one per parameter, the label, one per slot, and then one for
each value that its operations load or call for.  Everything else that it mentions (types, constants,
global variables, the ids of its callees) has a name that does not depend on the function.

`Specialized.lines` is the whole function as a list of lines, put together from its parts;
`Lowered` says that a function of a run is its form with every name replaced by its id, and that the
same goes for its callees.
-/

namespace ShaderLowering

open Spirv

/-- An operand of a line: a word, or an id by its name. -/
inductive Operand where
  | word (w : Word)
  | name (n : Name)
  deriving DecidableEq, Repr

namespace Operand

/-- The word of an operand. -/
def under (ν : List Name) : Operand → Word
  | .word w => w
  | .name n => (ident ν n).raw

/-- The name of an operand. -/
def name? : Operand → Option Name
  | .word _ => none
  | .name n => some n

end Operand

/-- An instruction with names in the place of ids. -/
structure Line where
  op : Op
  operands : List Operand
  deriving DecidableEq, Repr

namespace Line

/-- The instruction of a line. -/
def under (ν : List Name) (line : Line) : Instruction :=
  ⟨line.op.code, line.operands.map (Operand.under ν)⟩

/-- The names on a line. -/
def names (line : Line) : List Name :=
  line.operands.filterMap Operand.name?

theorem under_append {ν : List Name} {line : Line} (h : ∀ n ∈ line.names, n ∈ ν) (l : List Name) :
    line.under (ν ++ l) = line.under ν := by
  rw [Line.under, Line.under]
  congr 1
  refine List.map_congr_left fun operand hoperand => ?_
  cases operand with
  | word w => rfl
  | name n =>
    have hn : n ∈ line.names := List.mem_filterMap.mpr ⟨.name n, hoperand, rfl⟩
    rw [Operand.under, Operand.under, ident_append (h n hn)]

end Line

/-- The words of lines. -/
def wordsAt (ν : List Name) (lines : List Line) : List Word :=
  lines.flatMap fun line => (line.under ν).encode

theorem wordsAt_append (ν : List Name) (lines lines' : List Line) :
    wordsAt ν (lines ++ lines') = wordsAt ν lines ++ wordsAt ν lines' :=
  List.flatMap_append

theorem wordsAt_grow {ν : List Name} {lines : List Line}
    (h : ∀ line ∈ lines, ∀ n ∈ line.names, n ∈ ν) (l : List Name) :
    wordsAt (ν ++ l) lines = wordsAt ν lines := by
  induction lines with
  | nil => simp [wordsAt]
  | cons line lines ih =>
    have hrest := ih fun line hline => h line (by simp [hline])
    have hfirst := Line.under_append (h line (by simp)) l
    simp only [wordsAt, List.flatMap_cons, hfirst] at hrest ⊢
    rw [hrest]

namespace Specialized

variable (a : Assembly) (p : Specialized)

/-! ## The ids that a function takes -/

/-- The id that the function takes after so many others. -/
def own (number : Nat) : Name :=
  .own p.key number

/-- The id of an incoming parameter. -/
def incoming (position : Nat) : Name :=
  p.own (1 + position)

/-- The id of the label. -/
def label : Name :=
  p.own (1 + p.key.parameters.length)

/-- The id of the variable behind a slot. -/
def pointer (position : Nat) : Name :=
  p.own (2 + p.key.parameters.length + position)

/-- How many ids are taken before the operations. -/
def reserved : Nat :=
  2 + p.key.parameters.length + p.slotTypes.length

/-! ## The types that a function mentions -/

/-- The type of what is returned. -/
def returnValue : ValueType :=
  match p.returnType? with
  | none => .void
  | some id => a.valueType id

/-- The type of the value in a slot. -/
def slotValue (slot : Il.Slot) : ValueType :=
  ((p.slotTypes[slot.toNat]?).map a.valueType).getD .void

/-- The name of the type of the function. -/
def signature : Name :=
  .signature (p.returnValue a) (p.key.parameters.map a.valueType)

end Specialized

/-- The type of what the function of a key returns. -/
def Assembly.returnValue (a : Assembly) (key : FunctionKey) : ValueType :=
  match a.specialized? key with
  | none => .void
  | some p => p.returnValue a

namespace Specialized

variable (a : Assembly) (p : Specialized)

/-! ## The lines before the operations -/

/-- The line that begins the function. -/
def functionLine : Line :=
  ⟨.function, [.name (.value (p.returnValue a)), .name (p.own 0), .word noFunctionControl,
    .name (p.signature a)]⟩

/-- The line of an incoming parameter. -/
def parameterLine (id : TypeId) (position : Nat) : Line :=
  ⟨.functionParameter, [.name (.value (a.valueType id)), .name (p.incoming position)]⟩

/-- The line of the label. -/
def labelLine : Line :=
  ⟨.label, [.name p.label]⟩

/-- The line that declares the variable behind a slot. -/
def slotLine (id : TypeId) (position : Nat) : Line :=
  ⟨.variable, [.name (.pointer .function (a.valueType id)), .name (p.pointer position),
    .word StorageClass.function.code]⟩

/-- The line that stores an incoming parameter into its slot. -/
def arrivalLine (position : Nat) : Line :=
  ⟨.store, [.name (p.pointer position), .name (p.incoming position)]⟩

/-- The lines of incoming parameters, counted from a position. -/
def parameterLines (ids : List TypeId) (position : Nat) : List Line :=
  (ids.zipIdx position).map fun pair => p.parameterLine a pair.1 pair.2

/-- The lines of slots, counted from a position. -/
def slotLines (ids : List TypeId) (position : Nat) : List Line :=
  (ids.zipIdx position).map fun pair => p.slotLine a pair.1 pair.2

/-- The lines that store the incoming parameters. -/
def arrivalLines : List Line :=
  (List.range (min p.slotTypes.length p.key.parameters.length)).map p.arrivalLine

/-! ## The lines of operations -/

/-- The line that loads the value of a slot. -/
def loadLine (slot : Il.Slot) (number : Nat) : Line :=
  ⟨.load, [.name (.value (p.slotValue a slot)), .name (p.own number),
    .name (p.pointer slot.toNat)]⟩

/-- The line that stores a value into a slot. -/
def storeLine (slot : Il.Slot) (value : Name) : Line :=
  ⟨.store, [.name (p.pointer slot.toNat), .name value]⟩

/-- The lines that load arguments, counted from a number. -/
def argumentLines (arguments : List Il.Slot) (number : Nat) : List Line :=
  (arguments.zipIdx number).map fun pair => p.loadLine a pair.1 pair.2

/-- The line that calls a function. -/
def callLine (callee : FunctionKey) (arguments : Nat) (number : Nat) : Line :=
  ⟨.functionCall, .name (.value (a.returnValue callee)) :: .name (p.own (number + arguments)) ::
    .name (.own callee 0) :: (List.range' number arguments).map fun n => .name (p.own n)⟩

/-- The lines of a call. -/
def callLines (number : Nat) (result : Option Il.Slot) (callee : FunctionKey)
    (arguments : List Il.Slot) : List Line :=
  p.argumentLines a arguments number ++ p.callLine a callee arguments.length number ::
    result.toList.map fun slot => p.storeLine slot (p.own (number + arguments.length))

/-- The global variable that an operation names. -/
def globalName (wire : UInt64) : Name :=
  match EntityId.ofWire? wire with
  | some field => .global field
  | none => .own p.key 0

/-- The type of the value of the global variable that an operation names. -/
def globalType (wire : UInt64) : ValueType :=
  match EntityId.ofWire? wire with
  | some field => a.fieldType field
  | none => .void

/-- The lines of an operation, where so many ids are taken before it. -/
def operationLines (number : Nat) : Il.Operation → List Line
  | .call result wire arguments =>
    match p.calleeKey? a wire arguments with
    | some callee => p.callLines a number result callee arguments
    | none => []
  | .ret => [⟨.ret, []⟩]
  | .returnValue none => []
  | .returnValue (some slot) => [p.loadLine a slot number, ⟨.returnValue, [.name (p.own number)]⟩]
  | .load destination source =>
    [p.loadLine a source number, p.storeLine destination (p.own number)]
  | .loadField destination wire =>
    [⟨.load, [.name (.value (globalType a wire)), .name (p.own number), .name (p.globalName wire)]⟩,
      p.storeLine destination (p.own number)]
  | .storeField wire source =>
    [p.loadLine a source number, ⟨.store, [.name (p.globalName wire), .name (p.own number)]⟩]
  | .loadUInt32 destination bits =>
    [p.storeLine destination (.constant (p.slotValue a destination) bits)]
  | .loadFloat32 destination bits =>
    [p.storeLine destination (.constant (p.slotValue a destination) bits)]

end Specialized

/-- How many ids an operation takes. -/
def Il.Operation.taken : Il.Operation → Nat
  | .call _ _ arguments => arguments.length + 1
  | .returnValue _ | .load _ _ | .loadField _ _ | .storeField _ _ => 1
  | .ret | .loadUInt32 _ _ | .loadFloat32 _ _ => 0

/-- How many ids instructions take. -/
def Il.taken : List Il.Instruction → Nat
  | [] => 0
  | i :: rest =>
    match i.decode with
    | .ok op => op.taken + Il.taken rest
    | .error _ => Il.taken rest

namespace Specialized

variable (a : Assembly) (p : Specialized)

/-- The lines of instructions, where so many ids are taken before them. -/
def codeLines (number : Nat) : List Il.Instruction → List Line
  | [] => []
  | i :: rest =>
    match i.decode with
    | .ok op => p.operationLines a number op ++ codeLines (number + op.taken) rest
    | .error _ => codeLines number rest

/-- How many ids the whole function takes. -/
def taken : Nat :=
  p.reserved + Il.taken p.method.code.instructions

/-- The keys of the functions that instructions call, in call order. -/
def calledBy : List Il.Instruction → List FunctionKey
  | [] => []
  | i :: rest =>
    match i.decode with
    | .ok op => p.called a op ++ calledBy rest
    | .error _ => calledBy rest

theorem mem_codeLines {op : Il.Operation} {i : Il.Instruction} {code : List Il.Instruction}
    (hi : i ∈ code) (hdecode : i.decode = .ok op) (number : Nat) :
    ∃ number', ∀ line ∈ p.operationLines a number' op, line ∈ p.codeLines a number code := by
  induction code generalizing number with
  | nil => cases hi
  | cons i' rest ih =>
    rcases List.mem_cons.mp hi with rfl | hi
    · refine ⟨number, fun line hline => ?_⟩
      simp only [codeLines, hdecode]
      exact List.mem_append_left _ hline
    -- An instruction that cannot be decoded has no lines and takes no ids.
    · cases hdecode' : i'.decode with
      | ok op' =>
        obtain ⟨number', hmem⟩ := ih hi (number + op'.taken)
        refine ⟨number', fun line hline => ?_⟩
        simp only [codeLines, hdecode']
        exact List.mem_append_right _ (hmem line hline)
      | error _ =>
        obtain ⟨number', hmem⟩ := ih hi number
        refine ⟨number', fun line hline => ?_⟩
        simp only [codeLines, hdecode']
        exact hmem line hline

/-! ## The whole function -/

/-- The lines from the first one to the label. -/
def headLines : List Line :=
  p.functionLine a :: p.parameterLines a p.key.parameters 0 ++ [p.labelLine]

/-- All lines of the function. -/
def lines : List Line :=
  p.headLines a ++ p.slotLines a p.slotTypes 0 ++ p.arrivalLines
    ++ p.codeLines a p.reserved p.method.code.instructions ++ [⟨.functionEnd, []⟩]

theorem functionLine_mem : p.functionLine a ∈ p.lines a := by
  simp [lines, headLines]

variable {p} in
theorem parameterLine_mem {id : TypeId} {i : Nat} (hi : p.key.parameters[i]? = some id) :
    p.parameterLine a id i ∈ p.lines a := by
  have hmem : p.parameterLine a id i ∈ p.parameterLines a p.key.parameters 0 :=
    List.mem_map.mpr ⟨(id, i), List.mk_mem_zipIdx_iff_getElem?.mpr hi, rfl⟩
  simp [lines, headLines, hmem]

variable {p} in
theorem slotLine_mem {id : TypeId} {i : Nat} (hi : p.slotTypes[i]? = some id) :
    p.slotLine a id i ∈ p.lines a := by
  have hmem : p.slotLine a id i ∈ p.slotLines a p.slotTypes 0 :=
    List.mem_map.mpr ⟨(id, i), List.mk_mem_zipIdx_iff_getElem?.mpr hi, rfl⟩
  simp [lines, hmem]

/-- The lines of what a function performs are among its lines. -/
theorem mem_lines {op : Il.Operation} (hop : p.Performs op) :
    ∃ number, ∀ line ∈ p.operationLines a number op, line ∈ p.lines a := by
  obtain ⟨i, hi, hdecode⟩ := hop
  obtain ⟨number, hmem⟩ := p.mem_codeLines a hi hdecode p.reserved
  exact ⟨number, fun line hline => by simp [lines, hmem line hline]⟩

end Specialized

namespace Assembly

/-- The lines of the function of a key. -/
def lines (a : Assembly) (key : FunctionKey) : List Line :=
  match a.specialized? key with
  | none => []
  | some p => p.lines a

/-- The keys of the functions that the function of a key calls, in call order. -/
def callees (a : Assembly) (key : FunctionKey) : List FunctionKey :=
  match a.specialized? key with
  | none => []
  | some p => p.calledBy a p.method.code.instructions

end Assembly

/-- A function of a run is its form with ids in the place of names, and so are its callees. -/
inductive Lowered (a : Assembly) (ν : List Name) : Function → Prop
  | intro {f : Function} (hid : f.id = ident ν (.own f.key 0))
      (hreturn : f.returnType = ident ν (.value (a.returnValue f.key)))
      (hbody : f.body = wordsAt ν (a.lines f.key))
      (hknown : ∀ line ∈ a.lines f.key, ∀ n ∈ line.names, n ∈ ν)
      (hconstructible : Constructible a (.function f.key))
      (hcallees : f.callees.map Function.key = a.callees f.key)
      (hlowered : ∀ g ∈ f.callees, Lowered a ν g) : Lowered a ν f

namespace Lowered

variable {a : Assembly} {ν : List Name} {f : Function}

theorem constructible (h : Lowered a ν f) : Constructible a (.function f.key) := by
  obtain ⟨-, -, -, -, hconstructible, -, -⟩ := h
  exact hconstructible

theorem ids (h : Lowered a ν f) : f.id = ident ν (.own f.key 0) ∧
    f.returnType = ident ν (.value (a.returnValue f.key)) := by
  obtain ⟨hid, hreturn, -, -, -, -, -⟩ := h
  exact ⟨hid, hreturn⟩

/-- The id of a function and the type of what it returns are on its first line. -/
theorem id_mem (h : Lowered a ν f) :
    .own f.key 0 ∈ ν ∧ .value (a.returnValue f.key) ∈ ν := by
  obtain ⟨p, hp⟩ := h.constructible.specialized
  obtain ⟨-, -, -, hknown, -, -, -⟩ := h
  have hkey : p.key = f.key := (Assembly.specialized?_eq_some.mp hp).1
  have hline : p.functionLine a ∈ a.lines f.key := by
    rw [Assembly.lines, hp]
    simp [Specialized.lines, Specialized.headLines]
  refine ⟨hknown _ hline _ ?_, hknown _ hline _ ?_⟩
  · simp [Specialized.functionLine, Line.names, Operand.name?, Specialized.own, hkey]
  · simp [Specialized.functionLine, Line.names, Operand.name?, Assembly.returnValue, hp]

/-- A function does not change as more names get ids. -/
theorem grow (h : Lowered a ν f) (l : List Name) : Lowered a (ν ++ l) f := by
  induction h with
  | @intro f hid hreturn hbody hknown hconstructible hcallees hlowered ih =>
    obtain ⟨hown, hvalue⟩ := id_mem (.intro hid hreturn hbody hknown hconstructible hcallees hlowered)
    refine .intro ?_ ?_ ?_ ?_ hconstructible hcallees ih
    · rw [hid, ident_append hown]
    · rw [hreturn, ident_append hvalue]
    · rw [hbody, wordsAt_grow hknown]
    · exact fun line hline n hn => List.mem_append_left _ (hknown line hline n hn)

end Lowered

end ShaderLowering
