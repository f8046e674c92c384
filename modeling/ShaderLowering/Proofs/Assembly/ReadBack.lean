import Mathlib.Data.List.Forall2
import ShaderLowering.Assembly.Edit

/-!
# Code is read back as it was written

All tails of a method lie in one buffer, and methods are written to in turns.  Still an edit changes only the
method that it is addressed to (`Assembly.method?_edit_of_some`), and appends to its code exactly the line
that it bears (`Assembly.codeOf_edit`), so after any edits the code of a method is what has been addressed to
it while it was defined, in order (`Assembly.codeOf_editAll`).

The operands of each statement are read back with nothing left over, and ids stand for themselves
(`Statement.readAs_operationRead`).  There is one exception: a returned slot with the number that stands
for no slot is read as none (`returned_noSlot_is_none`).
-/

namespace ShaderLowering

open Il (Operation Instruction Reader)

/-! ## What an edit does to a method -/

/-- What an edit makes of the method with an id. -/
def Edit.change (id : MethodId) : Edit → MethodDef → MethodDef
  | .localSlot target declared, m => if target = id then (m.addLocal declared).2 else m
  | .write target line, m => if target = id then m.pushInstruction line.instruction else m
  | _, m => m

namespace Assembly

variable {a : Assembly} {id : MethodId} {m : MethodDef}

/-- To change a method leaves every other as it is. -/
theorem method?_editMethod? {α : Type} {method : MethodId} (change : MethodDef → α × MethodDef) :
    (((a.editMethod? method change).map Prod.snd).getD a).method? id =
      if method = id then (a.method? id).map fun m => (change m).2 else a.method? id := by
  cases hm : a.method? method with
  | none =>
    have hsame : ((a.editMethod? method change).map Prod.snd).getD a = a := by
      rw [editMethod?, hm]
      rfl
    rw [hsame]
    split
    · next heq =>
      subst heq
      rw [hm]
      rfl
    · rfl
  | some m =>
    have hindex : method.index < a.methods.size := (Array.getElem?_eq_some_iff.mp hm).1
    have hchanged : ((a.editMethod? method change).map Prod.snd).getD a =
        { a with methods := a.methods.setIfInBounds method.index (change m).2 } := by
      rw [editMethod?, hm]
      rfl
    rw [hchanged, method?, Array.getElem?_setIfInBounds]
    by_cases heq : method = id
    · subst heq
      rw [if_pos rfl, if_pos hindex, if_pos rfl, hm]
      rfl
    -- Different methods have different positions.
    · rw [if_neg fun hsame => heq (EntityId.index_injective hsame), if_neg heq]
      rfl

theorem method?_editMethod?_of_some {α : Type} {method : MethodId} (change : MethodDef → α × MethodDef)
    (h : a.method? id = some m) :
    (((a.editMethod? method change).map Prod.snd).getD a).method? id =
      some (if method = id then (change m).2 else m) := by
  rw [method?_editMethod?, h]
  split <;> rfl

/-- A method that is defined joins those that are there, and has neither locals nor code. -/
theorem method?_defineMethod (a : Assembly) (id : MethodId) (owner : TypeId) (name : String)
    (returnType : Option TypeId) (parameters : List TypeId) (attributes : List Attribute) :
    (a.edit (.method owner name returnType parameters attributes)).method? id = a.method? id ∨
      a.method? id = none ∧ ∃ m, m.locals = [] ∧ m.code = .empty ∧
        (a.edit (.method owner name returnType parameters attributes)).method? id = some m := by
  rw [edit, defineMethod]
  cases a.type? owner with
  | none => exact .inl rfl
  | some t =>
    simp only [Option.map_some, Option.getD_some, method?, Array.getElem?_push]
    split
    · next hlast =>
      rw [hlast, Array.getElem?_size]
      exact .inr ⟨rfl, _, rfl, rfl, rfl⟩
    · exact .inl rfl

/-- A method that is there is changed by an edit that is addressed to it, and stays as it is otherwise. -/
theorem method?_edit_of_some (e : Edit) (h : a.method? id = some m) :
    (a.edit e).method? id = some (e.change id m) := by
  cases e with
  | type | generic => exact h
  | field owner name type attributes =>
    rw [edit, defineField]
    split <;> exact h
  | method owner name returnType parameters attributes =>
    obtain hsame | ⟨hnone, -⟩ := a.method?_defineMethod id owner name returnType parameters attributes
    · exact hsame.trans h
    · cases h.symm.trans hnone
  | localSlot method type => exact method?_editMethod?_of_some _ h
  | write method line => exact method?_editMethod?_of_some _ h

/-- A method that is not there before an edit has neither locals nor code after it. -/
theorem blank_of_method?_edit (e : Edit) (h : a.method? id = none)
    (hm : (a.edit e).method? id = some m) : m.locals = [] ∧ m.code = .empty := by
  cases e with
  | type | generic => cases h.symm.trans hm
  | field owner name type attributes =>
    rw [edit, defineField] at hm
    split at hm <;> cases h.symm.trans hm
  | method owner name returnType parameters attributes =>
    -- A method that is defined begins without either, and no other edit makes one.
    obtain hsame | ⟨-, m', hlocals, hcode, hm'⟩ :=
      a.method?_defineMethod id owner name returnType parameters attributes
    · cases h.symm.trans (hsame.symm.trans hm)
    · obtain rfl := Option.some.inj (hm'.symm.trans hm)
      exact ⟨hlocals, hcode⟩
  | localSlot method type =>
    rw [edit, method?_editMethod?, h] at hm
    split at hm <;> cases hm
  | write method line =>
    rw [edit, method?_editMethod?, h] at hm
    split at hm <;> cases hm

/-- What a method keeps in a list; there is nothing if the method is not defined. -/
def keptBy {α : Type} (a : Assembly) (id : MethodId) (f : MethodDef → List α) : List α :=
  ((a.method? id).map f).getD []

theorem keptBy_of_some {α : Type} {f : MethodDef → List α} (h : a.method? id = some m) :
    a.keptBy id f = f m := by
  rw [keptBy, h]
  rfl

/-- What an edit adds to a list that methods keep can be told from the methods that are there, if the list is
empty at first. -/
theorem keptBy_edit {α : Type} {f : MethodDef → List α} {added : List α} (e : Edit)
    (hblank : ∀ m : MethodDef, m.locals = [] → m.code = .empty → f m = [])
    (hnone : a.method? id = none → added = [])
    (hsome : ∀ m, a.method? id = some m → f (e.change id m) = f m ++ added) :
    (a.edit e).keptBy id f = a.keptBy id f ++ added := by
  cases hm : a.method? id with
  | some m => rw [keptBy_of_some (method?_edit_of_some e hm), keptBy_of_some hm, hsome m hm]
  | none =>
    rw [hnone hm, List.append_nil, keptBy, keptBy, hm]
    cases hm' : (a.edit e).method? id with
    | none => rfl
    | some m' => exact hblank m' (blank_of_method?_edit e hm hm').1 (blank_of_method?_edit e hm hm').2

/-- A list to which each edit adds something is after any edits followed by all that they have added. -/
theorem keptBy_editAll {α : Type} {f : MethodDef → List α} {added : Assembly → Edit → List α}
    (all : Assembly → List Edit → List α) (hnil : ∀ a, all a [] = [])
    (hcons : ∀ a e edits, all a (e :: edits) = added a e ++ all (a.edit e) edits)
    (hedit : ∀ (a : Assembly) e, (a.edit e).keptBy id f = a.keptBy id f ++ added a e)
    (edits : List Edit) (a : Assembly) :
    (a.editAll edits).keptBy id f = a.keptBy id f ++ all a edits := by
  induction edits generalizing a with
  | nil => rw [hnil, editAll, List.foldl_nil, List.append_nil]
  | cons e edits ih =>
    calc (a.editAll (e :: edits)).keptBy id f
        = ((a.edit e).editAll edits).keptBy id f := rfl
      _ = (a.keptBy id f ++ added a e) ++ all (a.edit e) edits := by rw [ih, hedit]
      _ = _ := by rw [hcons, List.append_assoc]

/-! ## Whose code a line becomes -/

/-- The instructions of a method; there are none if it is not defined. -/
def codeOf (a : Assembly) (id : MethodId) : List Instruction :=
  ((a.method? id).map fun m => m.code.instructions).getD []

/-- The line that an edit appends to a method. -/
def lineOf (a : Assembly) (id : MethodId) : Edit → List CodeLine
  | .write method line => if method = id ∧ (a.method? id).isSome then [line] else []
  | _ => []

/-- The lines that edits append to a method, in order. -/
def linesOf (id : MethodId) : Assembly → List Edit → List CodeLine
  | _, [] => []
  | a, e :: edits => a.lineOf id e ++ linesOf id (a.edit e) edits

theorem codeOf_of_some (h : a.method? id = some m) : a.codeOf id = m.code.instructions :=
  keptBy_of_some h

/-- An edit appends to the code of a method what is addressed to it. -/
theorem codeOf_edit (a : Assembly) (id : MethodId) (e : Edit) :
    (a.edit e).codeOf id = a.codeOf id ++ (a.lineOf id e).map CodeLine.instruction := by
  refine keptBy_edit (f := fun m => m.code.instructions) e (fun m _ hcode => ?_) (fun hnone => ?_)
    fun m hm => ?_
  · rw [hcode]
    rfl
  · cases e with
    | write method line =>
      rw [lineOf, hnone, if_neg fun h => nomatch h.2]
      rfl
    | _ => rfl
  · cases e with
    | write method line =>
      by_cases hsame : method = id
      · simp [Edit.change, lineOf, hsame, hm, MethodDef.pushInstruction, Il.Code.instructions_push]
      · simp [Edit.change, lineOf, hsame]
    | localSlot method type =>
      refine Eq.trans ?_ (List.append_nil _).symm
      rw [Edit.change]
      split <;> rfl
    | _ => exact (List.append_nil _).symm

/-- After any edits the code of a method is followed by the lines that have been addressed to it. -/
theorem codeOf_editAll (id : MethodId) (edits : List Edit) (a : Assembly) :
    (a.editAll edits).codeOf id = a.codeOf id ++ (linesOf id a edits).map CodeLine.instruction :=
  keptBy_editAll (fun a edits => (linesOf id a edits).map CodeLine.instruction) (fun _ => rfl)
    (fun _ _ _ => List.map_append) (fun a e => a.codeOf_edit id e) edits a

end Assembly

/-! ## What is read of a line -/

namespace Statement

/-- What has a form on the wire: the result of a call is not the number that stands for no slot, and its
arguments can be counted in a word. -/
def Writable : Statement → Prop
  | .call result _ arguments => result ≠ some Il.noSlot ∧ arguments.length < UInt32.size
  | _ => True

instance : DecidablePred Writable
  | .call _ _ _ => inferInstanceAs (Decidable (_ ∧ _))
  | .ret | .returnValue _ | .load _ _ | .loadField _ _ | .storeField _ _ | .loadUInt32 _ _
  | .loadFloat32 _ _ => inferInstanceAs (Decidable True)

/-- An operation has the operands of a statement, where ids are taken from the wire.  A returned slot with
the number that stands for no slot is none. -/
def ReadAs : Statement → Operation → Prop
  | .call result callee arguments, op =>
    ∃ wire, op = .call result wire arguments ∧ EntityId.ofWire? wire = some callee
  | .ret, op => op = .ret
  | .returnValue value, op => op = .returnValue (if value = Il.noSlot then none else some value)
  | .load destination source, op => op = .load destination source
  | .loadField destination field, op =>
    ∃ wire, op = .loadField destination wire ∧ EntityId.ofWire? wire = some field
  | .storeField field source, op =>
    ∃ wire, op = .storeField wire source ∧ EntityId.ofWire? wire = some field
  | .loadUInt32 destination value, op => op = .loadUInt32 destination value
  | .loadFloat32 destination bits, op => op = .loadFloat32 destination bits

/-- The operation of a statement as it is read. -/
def operationRead : Statement → Operation
  | .returnValue value => .returnValue (if value = Il.noSlot then none else some value)
  | s => s.operation

variable {s : Statement}

theorem readAs_operationRead (s : Statement) : s.ReadAs s.operationRead := by
  cases s with
  | call result callee arguments => exact ⟨_, rfl, EntityId.ofWire?_toWire callee⟩
  | loadField destination field => exact ⟨_, rfl, EntityId.ofWire?_toWire field⟩
  | storeField field source => exact ⟨_, rfl, EntityId.ofWire?_toWire field⟩
  | _ => rfl

/-- No slot is written as the slot with its number. -/
theorem encode_operationRead (s : Statement) : s.operationRead.encode = s.operation.encode := by
  cases s with
  | returnValue value =>
    by_cases hnone : value = Il.noSlot
    · subst hnone
      rfl
    · rw [operationRead, if_neg hnone]
      rfl
  | _ => rfl

theorem encodable_operationRead (h : s.Writable) : s.operationRead.Encodable := by
  cases s with
  | call result callee arguments => exact h
  | returnValue value =>
    intro hvalue
    split at hvalue
    · cases hvalue
    · next hnone => exact hnone (Option.some.inj hvalue)
  | _ => trivial

end Statement

namespace CodeLine

/-- Whether a line has a form on the wire; instructions have. -/
def Writable : CodeLine → Prop
  | .statement s => s.Writable
  | .raw _ => True

instance : DecidablePred Writable
  | .statement s => inferInstanceAs (Decidable s.Writable)
  | .raw _ => inferInstanceAs (Decidable True)

/-- An instruction bears the opcode of a statement, its operands are read as those of the statement and
nothing is left of its tail; an instruction is as it has been put there. -/
def ReadBack : CodeLine → Instruction → Prop
  | .statement s, i => i.opcode = s.operation.opcode ∧ ∃ op, s.ReadAs op ∧
      Operation.read i.opcode i.reader = (.ok op, ⟨i.opcode, i.tail.length, []⟩)
  | .raw i', i => i = i'

/-- A line is read back from its form on the wire. -/
theorem readBack_instruction {line : CodeLine} (h : line.Writable) : line.ReadBack line.instruction := by
  cases line with
  | raw i => rfl
  | statement s =>
    refine ⟨rfl, s.operationRead, s.readAs_operationRead, ?_⟩
    have hread := Operation.read_tail_append (Statement.encodable_operationRead h) []
    rw [List.append_nil] at hread
    change Operation.read s.operation.encode.opcode s.operation.encode.reader =
      (_, ⟨s.operation.encode.opcode, s.operation.encode.tail.length, []⟩)
    rw [← s.encode_operationRead]
    exact hread

end CodeLine

/-- Whatever edits put an assembly together, the instructions of a method are the lines that have been
addressed to it, in order, and each is read back as it was written: its opcode, its operands with the ids
that they name, and nothing after them.  A returned slot with the number that stands for no slot is read as
none. -/
theorem instructions_editAll (name : String) (edits : List Edit) {id : MethodId} {m : MethodDef}
    (hm : ((Assembly.empty name).editAll edits).method? id = some m)
    (hwritable : ∀ line ∈ Assembly.linesOf id (.empty name) edits, line.Writable) :
    List.Forall₂ CodeLine.ReadBack (Assembly.linesOf id (.empty name) edits) m.code.instructions := by
  have hcode := Assembly.codeOf_editAll id edits (.empty name)
  rw [Assembly.codeOf_of_some hm] at hcode
  have hempty : (Assembly.empty name).codeOf id = [] := rfl
  rw [hcode, hempty, List.nil_append, List.forall₂_map_right_iff, List.forall₂_same]
  exact fun line hline => CodeLine.readBack_instruction (hwritable line hline)

section Scribble

/-- A type with two methods that are written to in turns, one before the other is defined, with a line
for a method that does not exist and one with a tail of its own. -/
def scribble : List Edit :=
  [.type "T" [], .method ⟨0⟩ "first" none [] [.static],
    .write ⟨0⟩ (.statement (.call (some 1) ⟨1⟩ [0, Il.noSlot])),
    .method ⟨0⟩ "second" (some ⟨0⟩) [⟨0⟩] [.static], .write ⟨1⟩ (.raw ⟨.loadField, [7, 0xFF]⟩),
    .write ⟨0⟩ (.statement (.storeField ⟨9⟩ 2)), .localSlot ⟨0⟩ ⟨0⟩,
    .write ⟨2⟩ (.statement .ret), .write ⟨1⟩ (.statement (.returnValue Il.noSlot)),
    .write ⟨0⟩ (.statement .ret)]

/-- Both methods of the scribble are read back as they were written. -/
theorem scribble_read_back :
    ∃ first second : MethodDef,
      ((Assembly.empty "A").editAll scribble).method? ⟨0⟩ = some first ∧
      ((Assembly.empty "A").editAll scribble).method? ⟨1⟩ = some second ∧
      (∀ line ∈ Assembly.linesOf ⟨0⟩ (.empty "A") scribble, line.Writable) ∧
      (∀ line ∈ Assembly.linesOf ⟨1⟩ (.empty "A") scribble, line.Writable) ∧
      List.Forall₂ CodeLine.ReadBack [.statement (.call (some 1) ⟨1⟩ [0, Il.noSlot]),
        .statement (.storeField ⟨9⟩ 2), .statement .ret] first.code.instructions ∧
      List.Forall₂ CodeLine.ReadBack [.raw ⟨.loadField, [7, 0xFF]⟩, .statement (.returnValue Il.noSlot)]
        second.code.instructions := by
  have hfirst : ∀ line ∈ Assembly.linesOf ⟨0⟩ (.empty "A") scribble, line.Writable := by decide
  have hsecond : ∀ line ∈ Assembly.linesOf ⟨1⟩ (.empty "A") scribble, line.Writable := by decide
  exact ⟨_, _, rfl, rfl, hfirst, hsecond, instructions_editAll "A" scribble rfl hfirst,
    instructions_editAll "A" scribble rfl hsecond⟩

/-- A slot that is returned is not read back if it bears the number that stands for no slot. -/
theorem returned_noSlot_is_none :
    ∃ m i, ((Assembly.empty "A").editAll [.type "T" [], .method ⟨0⟩ "m" none [] [.static],
        .write ⟨0⟩ (.statement (.returnValue Il.noSlot))]).method? ⟨0⟩ = some m ∧
      m.code.instructions = [i] ∧ i.opcode = .returnValue ∧
      Operation.read i.opcode i.reader = (.ok (.returnValue none), ⟨.returnValue, 4, []⟩) ∧
      ∀ r, Operation.read i.opcode i.reader ≠ (.ok (.returnValue (some Il.noSlot)), r) := by
  have hread : Operation.read .returnValue (Reader.start .returnValue [0xFF, 0xFF, 0xFF, 0xFF]) =
      (.ok (.returnValue none), ⟨.returnValue, 4, []⟩) := rfl
  refine ⟨_, ⟨.returnValue, [0xFF, 0xFF, 0xFF, 0xFF]⟩, rfl, rfl, rfl, hread, fun r heq => ?_⟩
  cases hread.symm.trans heq

end Scribble

end ShaderLowering
