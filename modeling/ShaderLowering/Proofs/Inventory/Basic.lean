import ShaderLowering.Proofs.Layout.Streams
import ShaderLowering.Proofs.Lowering.Names
import ShaderLowering.Proofs.Modules.Scopes
import ShaderLowering.Proofs.Sessions.Interning
import ShaderLowering.Proofs.Threads.Confined
import ShaderLowering.Proofs.Threads.Governed

/-!
# The inventory of a run

What a run has given its ids to, in the order in which it has issued them: declarations, and ids inside
functions; and among them the global variables that have been exposed.  Each item is put down under the key
whose construction has made it (`Inventory`).

The inventory tallies with what has been written at any time (`Tallies`).  A declaration refers to types that
have been declared before, because whoever asks for a shape or a constant has been given the ids of its
components (`Key.components`), and what is given are ids of the inventory (`Had`).

Nothing is asked of the assembly, nor of what can be constructed.  Ids grow with the inventory as long as
they fit a word; the rest holds however many ids are issued.
-/

namespace ShaderLowering

open Construction
open Spirv

/-! ## Components -/

/-- The ids of the types that a shape is made of. -/
def Shape.components : Shape → List Id
  | .void | .int .. | .float _ => []
  | .vector element _ => [element]
  | .pointer _ pointee => [pointee]
  | .function returnType parameters => returnType :: parameters

/-- The ids of types by which a key says what is meant. -/
def Key.components : Key → List Id
  | .shape s => s.components
  | .constant valueType _ => [valueType]
  | .type _ | .variable _ | .function _ => []

namespace Declaration

/-- The ids that a declaration refers to. -/
def components : Declaration → List Id
  | .struct members => members
  | .shape s => s.components
  | .constant valueType _ => [valueType]
  | .variable pointerType _ => [pointerType]

/-- The declaration is one of a type. -/
def IsType : Declaration → Prop
  | .struct _ | .shape _ => True
  | _ => False

/-- The declaration is one of a constant. -/
def IsConstant : Declaration → Prop
  | .constant .. => True
  | _ => False

/-- The declaration is one of a global variable. -/
def IsVariable : Declaration → Prop
  | .variable .. => True
  | _ => False

end Declaration

/-! ## Items -/

/-- What a construction has done to the state that all share. -/
inductive Item where
  | declared (declaration : Declaration) (id : Id)
  /-- An id has been taken for use inside a function. -/
  | taken (id : Id)
  | exposed (global : GlobalVariable)

namespace Item

/-- The instruction among the declarations. -/
def instruction? : Item → Option Instruction
  | .declared declaration id => some (declaration.instruction id)
  | _ => none

/-- The id that has been issued. -/
def id? : Item → Option Id
  | .declared _ id => some id
  | .taken id => some id
  | .exposed _ => none

/-- The variable among the global ones. -/
def global? : Item → Option GlobalVariable
  | .exposed global => some global
  | _ => none

/-- The item has nothing to do with global variables. -/
def IsPlain : Item → Prop
  | .declared declaration _ => ¬declaration.IsVariable
  | .taken _ => True
  | .exposed _ => False

end Item

/-- Everything that has been done, each item under the key whose construction has done it. -/
abbrev Inventory := List (Key × Item)

namespace Inventory

/-- What the construction of a key has done. -/
def of (h : Inventory) (k : Key) : List Item :=
  (h.filter fun note => note.1 = k).map Prod.snd

/-- The ids that have been issued to constructions, in order. -/
def ids (h : Inventory) : List Id :=
  h.filterMap fun note => note.2.id?

/-- The declarations that the inventory tells of. -/
def declarations (h : Inventory) : List Instruction :=
  h.filterMap fun note => note.2.instruction?

/-- An id has been given to a declaration of some kind. -/
def Declares (h : Inventory) (kind : Declaration → Prop) (id : Id) : Prop :=
  ∃ k d, (k, .declared d id) ∈ h ∧ kind d

/-- The id is that of a type. -/
abbrev Types (h : Inventory) (id : Id) : Prop :=
  h.Declares Declaration.IsType id

/-- The id is that of a constant. -/
abbrev Constants (h : Inventory) (id : Id) : Prop :=
  h.Declares Declaration.IsConstant id

/-- The id is that of a global variable. -/
abbrev Variables (h : Inventory) (id : Id) : Prop :=
  h.Declares Declaration.IsVariable id

/-- The id is one inside a function. -/
def Taken (h : Inventory) (id : Id) : Prop :=
  ∃ k, (k, .taken id) ∈ h

end Inventory

/-! ## Functions -/

/-- The results of instructions. -/
def resultsOf (is : List Instruction) : List Word :=
  is.filterMap Instruction.defines?

/-- An id that a function may load from, store or pass: one of its own, or that of a constant or of a
global variable. -/
def Usable (h : Inventory) (here : List Word) (id : Id) : Prop :=
  id.raw ∈ here ∨ h.Constants id ∨ h.Variables id

/-- An instruction of a function that has given some ids a meaning, and calls some functions. -/
inductive Sourced (h : Inventory) (here : List Word) (callees : List Function) : Instruction → Prop
  | function {returnType id functionType : Id} (hreturn : h.Types returnType) (hid : h.Taken id)
      (hfunction : h.Types functionType) : Sourced h here callees
        ⟨Op.function.code, [returnType.raw, id.raw, noFunctionControl, functionType.raw]⟩
  | parameter {type id : Id} (htype : h.Types type) (hid : h.Taken id) :
      Sourced h here callees ⟨Op.functionParameter.code, [type.raw, id.raw]⟩
  | label {id : Id} (hid : h.Taken id) : Sourced h here callees ⟨Op.label.code, [id.raw]⟩
  | slot {type id : Id} (htype : h.Types type) (hid : h.Taken id) : Sourced h here callees
      ⟨Op.variable.code, [type.raw, id.raw, StorageClass.function.code]⟩
  | load {type id pointer : Id} (htype : h.Types type) (hid : h.Taken id)
      (hpointer : Usable h here pointer) :
      Sourced h here callees ⟨Op.load.code, [type.raw, id.raw, pointer.raw]⟩
  | store {pointer value : Id} (hpointer : Usable h here pointer) (hvalue : Usable h here value) :
      Sourced h here callees ⟨Op.store.code, [pointer.raw, value.raw]⟩
  | call {f : Function} {id : Id} {arguments : List Id} (hf : f ∈ callees)
      (hreturn : h.Types f.returnType) (hid : h.Taken id)
      (hlength : arguments.length = f.key.parameters.length)
      (harguments : ∀ argument ∈ arguments, Usable h here argument) : Sourced h here callees
        ⟨Op.functionCall.code, f.returnType.raw :: id.raw :: f.id.raw :: arguments.map Id.raw⟩
  | ret : Sourced h here callees ⟨Op.ret.code, []⟩
  | returnValue {value : Id} (hvalue : Usable h here value) :
      Sourced h here callees ⟨Op.returnValue.code, [value.raw]⟩
  | functionEnd : Sourced h here callees ⟨Op.functionEnd.code, []⟩

/-- The words of a function are instructions that refer to declarations, to what the function has defined
and to its callees, the first of which begins the function; and so are those of its callees. -/
inductive Written (h : Inventory) : Function → Prop
  | intro {f : Function} (first : Instruction) (rest : List Instruction) (hid : h.Taken f.id)
      (hreturn : h.Types f.returnType) (hfirst : first.op? = some .function)
      (hbody : f.body = (first :: rest).flatMap Instruction.encode)
      (hsourced : ∀ i ∈ first :: rest, Sourced h (resultsOf (first :: rest)) f.callees i)
      (hcallees : ∀ g ∈ f.callees, Written h g) : Written h f

/-! ## What tallies -/

/-- What the construction of a variable can have done at any time: nothing, or it has declared the variable,
or it has declared and exposed it. -/
inductive Exposing (a : Assembly) (field : FieldId) : List Item → Prop
  | nothing : Exposing a field []
  | declared (pointerType id : Id) :
      Exposing a field [.declared (.variable pointerType (a.storage field)) id]
  | exposed (pointerType id valueType : Id) : Exposing a field
      [.declared (.variable pointerType (a.storage field)) id,
        .exposed ⟨id, field, a.storage field, valueType⟩]

/-- What the construction of a key can have done: variables are left to the constructions for fields. -/
def Belongs (a : Assembly) : Key → List Item → Prop
  | .variable field, items => Exposing a field items
  | _, items => ∀ item ∈ items, item.IsPlain

/-- The inventory tallies with what has been written. -/
structure Tallies (a : Assembly) (h : Inventory) (e : Emission) : Prop where
  declared : e.declared = h.filterMap fun note => note.2.instruction?
  globals : e.globals = h.filterMap fun note => note.2.global?
  belongs : ∀ k, Belongs a k (h.of k)
  grounded : ∀ l k d id, l ++ [(k, .declared d id)] <+: h → ∀ i ∈ d.components, Inventory.Types l i
  ascending : e.ids.issued < UInt32.size → h.ids.Pairwise fun i j => i.raw < j.raw
  issued : e.ids.issued < UInt32.size → ∀ id ∈ h.ids, id.raw.toNat ≤ e.ids.issued

/-- What is had for a key is in the inventory. -/
def Had (h : Inventory) : (k : Key) → k.Value → Prop
  | .type _, id => h.Types id
  | .shape _, id => h.Types id
  | .constant .., id => h.Constants id
  | .variable _, v => h.Types v.valueType ∧ h.Variables v.id
  | .function key, f => f.key = key ∧ Written h f

/-! ## Growing inventories -/

section Growth

variable {a : Assembly} {h h' l : Inventory} {k : Key} {id : Id}

namespace Inventory

theorem Declares.mono {kind : Declaration → Prop} (hid : h.Declares kind id) (hsubset : h ⊆ h') :
    h'.Declares kind id := by
  obtain ⟨k, d, hmem, hkind⟩ := hid
  exact ⟨k, d, hsubset hmem, hkind⟩

theorem Taken.mono (hid : h.Taken id) (hsubset : h ⊆ h') : h'.Taken id := by
  obtain ⟨k, hmem⟩ := hid
  exact ⟨k, hsubset hmem⟩

theorem of_append (h l : Inventory) (k : Key) : of (h ++ l) k = h.of k ++ l.of k := by
  rw [of, List.filter_append, List.map_append, of, of]

theorem of_eq_nil (hl : ∀ note ∈ l, note.1 ≠ k) : l.of k = [] := by
  rw [of, List.map_eq_nil_iff, List.filter_eq_nil_iff]
  exact fun note hnote => by simpa using hl note hnote

theorem mem_of {item : Item} : item ∈ h.of k ↔ (k, item) ∈ h := by
  simp [of]

theorem mem_declarations {d : Declaration} (hmem : (k, .declared d id) ∈ h) :
    d.instruction id ∈ h.declarations :=
  List.mem_filterMap.mpr ⟨_, hmem, rfl⟩

theorem declarations_subset (hsubset : h ⊆ h') : h.declarations ⊆ h'.declarations := fun i hi => by
  obtain ⟨note, hnote, hsome⟩ := List.mem_filterMap.mp hi
  exact List.mem_filterMap.mpr ⟨note, hsubset hnote, hsome⟩

theorem of_singleton (k k' : Key) (item : Item) : of [(k, item)] k' = if k = k' then [item] else [] := by
  by_cases hsame : k = k' <;> simp [of, hsame]

/-- Nobody else puts anything down under the key of a construction. -/
theorem of_relies (hrelies : Discipline.Relies (I := lowering) (.construct k) h h') :
    of h' k = h.of k := by
  obtain ⟨l, rfl, hl⟩ := hrelies
  rw [of_append, of_eq_nil fun note hnote heq => hl note hnote (heq ▸ rfl), List.append_nil]

end Inventory

theorem Usable.mono {here here' : List Word} (hid : Usable h here id) (hsubset : h ⊆ h')
    (hhere : here ⊆ here') : Usable h' here' id :=
  hid.imp (fun hmem => hhere hmem) (.imp (·.mono hsubset) (·.mono hsubset))

theorem Sourced.mono {here here' : List Word} {callees callees' : List Function} {i : Instruction}
    (hi : Sourced h here callees i) (hsubset : h ⊆ h') (hhere : here ⊆ here')
    (hcallees : callees ⊆ callees') : Sourced h' here' callees' i := by
  cases hi with
  | function hreturn hid hfunction =>
    exact .function (hreturn.mono hsubset) (hid.mono hsubset) (hfunction.mono hsubset)
  | parameter htype hid => exact .parameter (htype.mono hsubset) (hid.mono hsubset)
  | label hid => exact .label (hid.mono hsubset)
  | slot htype hid => exact .slot (htype.mono hsubset) (hid.mono hsubset)
  | load htype hid hpointer =>
    exact .load (htype.mono hsubset) (hid.mono hsubset) (hpointer.mono hsubset hhere)
  | store hpointer hvalue => exact .store (hpointer.mono hsubset hhere) (hvalue.mono hsubset hhere)
  | call hf hreturn hid hlength harguments =>
    exact .call (hcallees hf) (hreturn.mono hsubset) (hid.mono hsubset) hlength
      fun argument hargument => (harguments argument hargument).mono hsubset hhere
  | ret => exact .ret
  | returnValue hvalue => exact .returnValue (hvalue.mono hsubset hhere)
  | functionEnd => exact .functionEnd

theorem Written.mono {f : Function} (hf : Written h f) (hsubset : h ⊆ h') : Written h' f := by
  induction hf with
  | intro first rest hid hreturn hfirst hbody hsourced _ ih =>
    exact .intro first rest (hid.mono hsubset) (hreturn.mono hsubset) hfirst hbody
      (fun i hi => (hsourced i hi).mono hsubset (List.Subset.refl _) (List.Subset.refl _)) ih

theorem Had.mono {v : k.Value} (hv : Had h k v) (hsubset : h ⊆ h') : Had h' k v := by
  cases k with
  | type id => exact Inventory.Declares.mono hv hsubset
  | shape s => exact Inventory.Declares.mono hv hsubset
  | constant type bits => exact Inventory.Declares.mono hv hsubset
  | «variable» field => exact ⟨hv.1.mono hsubset, hv.2.mono hsubset⟩
  | function key => exact ⟨hv.1, hv.2.mono hsubset⟩

end Growth

/-! ## Actions -/

namespace Tallies

variable {a : Assembly} {h : Inventory} {e e' : Emission} {k : Key}

theorem empty (a : Assembly) : Tallies a [] Emission.empty where
  declared := rfl
  globals := rfl
  belongs
    | .variable _ => .nothing
    | .type _ | .shape _ | .constant .. | .function _ => nofun
  grounded l k d id hbegins := by simp at hbegins
  ascending _ := .nil
  issued _ := nofun

/-- Ids may be issued that are put down nowhere. -/
theorem quiet (he : Tallies a h e) (hdeclared : e'.declared = e.declared)
    (hglobals : e'.globals = e.globals) (hissued : e.ids.issued ≤ e'.ids.issued) : Tallies a h e' where
  declared := hdeclared.trans he.declared
  globals := hglobals.trans he.globals
  belongs := he.belongs
  grounded := he.grounded
  ascending hsize := he.ascending (Nat.lt_of_le_of_lt hissued hsize)
  issued hsize id hid := (he.issued (Nat.lt_of_le_of_lt hissued hsize) id hid).trans hissued

/-- An item is put down when it is done, with the next id if it takes one. -/
theorem note {item : Item} (he : Tallies a h e)
    (hdeclared : e'.declared = e.declared ++ item.instruction?.toList)
    (hglobals : e'.globals = e.globals ++ item.global?.toList)
    (hids : item.id? = none ∧ e'.ids = e.ids ∨
      item.id? = some e.ids.next.1 ∧ e'.ids = e.ids.next.2)
    (hgrounded : ∀ d id, item = .declared d id → ∀ i ∈ d.components, h.Types i)
    (hbelongs : Belongs a k (h.of k ++ [item])) : Tallies a (h ++ [(k, item)]) e' := by
  have hle : e.ids.issued ≤ e'.ids.issued := by
    rcases hids with ⟨-, heq⟩ | ⟨-, heq⟩ <;> rw [heq]
    exact Nat.le_succ _
  have hone : Inventory.ids (h ++ [(k, item)]) = h.ids ++ item.id?.toList := by
    rw [Inventory.ids, List.filterMap_append, Inventory.ids]
    cases hid : item.id? <;> simp [hid]
  constructor
  case declared =>
    rw [hdeclared, List.filterMap_append, he.declared]
    cases hinstruction : item.instruction? <;> simp [hinstruction]
  case globals =>
    rw [hglobals, List.filterMap_append, he.globals]
    cases hglobal : item.global? <;> simp [hglobal]
  case belongs =>
    intro k'
    rw [Inventory.of_append, Inventory.of_singleton]
    split
    · next hsame => exact hsame ▸ hbelongs
    · rw [List.append_nil]
      exact he.belongs k'
  case grounded =>
    intro l k' d id hbegins
    rcases List.prefix_concat_iff.mp hbegins with heq | hbegins
    · obtain ⟨rfl, hlast⟩ := List.append_inj' heq rfl
      obtain ⟨-, hitem⟩ := Prod.mk.inj (List.cons.inj hlast).1
      exact hgrounded d id hitem.symm
    · exact he.grounded l k' d id hbegins
  case ascending =>
    intro hsize
    have hbefore : e.ids.issued < UInt32.size := Nat.lt_of_le_of_lt hle hsize
    rw [hone]
    rcases hids with ⟨hnone, -⟩ | ⟨hsome, heq⟩
    · rw [hnone, Option.toList_none, List.append_nil]
      exact he.ascending hbefore
    · rw [heq] at hsize
      rw [hsome, Option.toList_some, List.pairwise_append]
      refine ⟨he.ascending hbefore, List.pairwise_singleton _ _, fun i hi j hj => ?_⟩
      rw [List.mem_singleton.mp hj, UInt32.lt_iff_toNat_lt, toNat_next hsize]
      exact Nat.lt_succ_of_le (he.issued hbefore i hi)
  case issued =>
    intro hsize id hid
    have hbefore : e.ids.issued < UInt32.size := Nat.lt_of_le_of_lt hle hsize
    rw [hone] at hid
    rcases List.mem_append.mp hid with hid | hid
    · exact (he.issued hbefore id hid).trans hle
    · rcases hids with ⟨hnone, -⟩ | ⟨hsome, heq⟩
      · simp [hnone] at hid
      · rw [heq] at hsize ⊢
        rw [hsome, Option.toList_some, List.mem_singleton] at hid
        rw [hid, toNat_next hsize]
        exact le_rfl

end Tallies

end ShaderLowering
