import ShaderLowering.Lowering.Session
import ShaderLowering.Proofs.Layout.Postorder
import ShaderLowering.Proofs.Layout.Streams
import ShaderLowering.Proofs.Sessions.Regime

/-!
# Two runs that begin at different ids

An `Offset` is by how much the ids of a second run are larger than those of a first, which all of its ids
allow for.  What stands for what in the two runs is told apart from the instructions alone: a word stands for
itself unless the layout takes it for an id, and then for itself plus the offset
(`Offset.Instructions`); functions, global variables, keys and what has been written stand for each other if
their ids and instructions do.

`Offset.Tasks` is a relation of construction tasks: they take the same turns as long as they are answered with
what stands for each other, and end with such values.  If the factories of keys that stand for each other are
related in this way then requests for them are answered so (`Offset.resolve_moves`), and whatever is asked
for, slots that stand for each other hold what does, and the same has been written up to the offset
(`Offset.execute_moves`).
-/

namespace ShaderLowering

open Construction (Task State SlotState Outcome Result Answerer Table resolve conclude)
open Spirv

/-- By how much ids are larger in a second run, and the last id of the first. -/
structure Offset where
  amount : Nat
  last : Nat
  fits : last + amount < UInt32.size

namespace Offset

variable (o : Offset)

/-- The word of an id in the second run. -/
def word (w : Word) : Word :=
  w + UInt32.ofNat o.amount

/-! ## What stands for what -/

/-- An id of the first run, and the one that stands for it in the second. -/
structure Moves (i i' : Id) : Prop where
  eq : i'.raw = o.word i.raw
  le : i.raw.toNat ≤ o.last

/-- Shapes with components that stand for each other. -/
inductive Shapes : Shape → Shape → Prop
  | void : Shapes .void .void
  | int (width : Word) (signed : Bool) : Shapes (.int width signed) (.int width signed)
  | float (width : Word) : Shapes (.float width) (.float width)
  | vector {element element' : Id} (h : o.Moves element element') (size : Word) :
      Shapes (.vector element size) (.vector element' size)
  | pointer (storage : StorageClass) {pointee pointee' : Id} (h : o.Moves pointee pointee') :
      Shapes (.pointer storage pointee) (.pointer storage pointee')
  | function {returnType returnType' : Id} {parameters parameters' : List Id}
      (hreturn : o.Moves returnType returnType') (h : List.Forall₂ o.Moves parameters parameters') :
      Shapes (.function returnType parameters) (.function returnType' parameters')

/-- Keys of the same entity, or of shapes or constants that stand for each other. -/
inductive Keys : Key → Key → Prop
  | type (id : TypeId) : Keys (.type id) (.type id)
  | shape {s s' : Shape} (h : o.Shapes s s') : Keys (.shape s) (.shape s')
  | constant {type type' : Id} (h : o.Moves type type') (bits : Word) :
      Keys (.constant type bits) (.constant type' bits)
  | variable (field : FieldId) : Keys (.variable field) (.variable field)
  | function (key : FunctionKey) : Keys (.function key) (.function key)

/-- Global variables of the same field. -/
structure Globals (g g' : GlobalVariable) : Prop where
  id : o.Moves g.id g'.id
  field : g'.field = g.field
  storage : g'.storage = g.storage
  valueType : o.Moves g.valueType g'.valueType

/-- Instructions that differ in their ids only. -/
structure Instructions (i i' : Instruction) : Prop where
  eq : i' = i.mapIds o.word
  le : ∀ w ∈ i.ids, w.toNat ≤ o.last

/-- An instruction of a function is short, or it is a call and has three operands beside the arguments. -/
def Sized (callees : List Function) (i : Instruction) : Prop :=
  i.operands.length ≤ 4 ∨ ∃ g ∈ callees, i.operands.length = g.key.parameters.length + 3

/-- The words of a function with callees, in which only the ids of instructions differ. -/
def Texts (callees : List Function) (words words' : List Word) : Prop :=
  ∃ is is', List.Forall₂ o.Instructions is is' ∧ (∀ i ∈ is, Sized callees i) ∧
    words = is.flatMap Instruction.encode ∧ words' = is'.flatMap Instruction.encode

/-- Functions of the same key whose words differ in their ids only. -/
inductive Functions : Function → Function → Prop
  | mk {f f' : Function} (id : o.Moves f.id f'.id) (key : f'.key = f.key)
      (returnType : o.Moves f.returnType f'.returnType) (body : o.Texts f.callees f.body f'.body)
      (callees : List.Forall₂ Functions f.callees f'.callees) : Functions f f'

/-- What may be had for keys that stand for each other. -/
def Values : (k k' : Key) → k.Value → k'.Value → Prop
  | .type _, .type _ => o.Moves
  | .shape _, .shape _ => o.Moves
  | .constant .., .constant .. => o.Moves
  | .variable _, .variable _ => o.Globals
  | .function key, .function _ => fun f f' => f.key = key ∧ o.Functions f f'
  | _, _ => fun _ _ => False

/-- Declarations of which one stands for the other. -/
inductive Declarations : Declaration → Declaration → Prop
  | struct {members members' : List Id} (h : List.Forall₂ o.Moves members members') :
      Declarations (.struct members) (.struct members')
  | shape {s s' : Shape} (h : o.Shapes s s') : Declarations (.shape s) (.shape s')
  | constant {type type' : Id} (h : o.Moves type type') (bits : Word) :
      Declarations (.constant type bits) (.constant type' bits)
  | variable {type type' : Id} (h : o.Moves type type') (storage : StorageClass) :
      Declarations (.variable type storage) (.variable type' storage)

/-- Actions of which one stands for the other. -/
inductive Actions : Action → Action → Prop
  | freshId : Actions .freshId .freshId
  | declare {d d' : Declaration} (h : o.Declarations d d') : Actions (.declare d) (.declare d')
  | decorate {target target' : Id} (h : o.Moves target target') (location : Word) :
      Actions (.decorate target location) (.decorate target' location)
  | expose {g g' : GlobalVariable} (h : o.Globals g g') : Actions (.expose g) (.expose g')

/-- What actions that stand for each other answer. -/
def Answers : (x x' : Action) → x.Answer → x'.Answer → Prop
  | .freshId, .freshId => o.Moves
  | .declare _, .declare _ => o.Moves
  | .decorate .., .decorate .. => fun _ _ => True
  | .expose _, .expose _ => fun _ _ => True
  | _, _ => fun _ _ => False

/-- What has been written in both runs. -/
structure Emissions (e e' : Emission) : Prop where
  issued : e'.ids.issued = e.ids.issued + o.amount
  declared : List.Forall₂ o.Instructions e.declared e'.declared
  annotated : List.Forall₂ o.Instructions e.annotated e'.annotated
  globals : List.Forall₂ o.Globals e.globals e'.globals

/-- Slots that stand for each other are in the same state. -/
inductive Slots (k k' : Key) : Option (SlotState k.Value) → Option (SlotState k'.Value) → Prop
  | free : Slots k k' none none
  | building : Slots k k' (some .building) (some .building)
  | failed : Slots k k' (some .failed) (some .failed)
  | ready {v : k.Value} {v' : k'.Value} (h : o.Values k k' v v') :
      Slots k k' (some (.ready v)) (some (.ready v'))

/-- The states of both runs. -/
structure Sessions (s s' : Session) : Prop where
  slots : ∀ k k', o.Keys k k' → o.Slots k k' (s.slots.get? k) (s'.slots.get? k')
  shared : o.Emissions s.shared s'.shared

/-! ## Nothing stands for two -/

variable {o}

theorem word_injective (o : Offset) : Function.Injective o.word :=
  fun _ _ h => UInt32.add_left_inj _ |>.mp h

theorem Moves.eq_iff {i i' j j' : Id} (h : o.Moves i i') (h' : o.Moves j j') : j = i ↔ j' = i' := by
  obtain ⟨w⟩ := i
  obtain ⟨w'⟩ := i'
  obtain ⟨v⟩ := j
  obtain ⟨v'⟩ := j'
  obtain rfl : w' = o.word w := h.eq
  obtain rfl : v' = o.word v := h'.eq
  simp only [Id.mk.injEq, o.word_injective.eq_iff]

theorem forall₂_moves_eq_iff {is is' js js' : List Id} (h : List.Forall₂ o.Moves is is')
    (h' : List.Forall₂ o.Moves js js') : js = is ↔ js' = is' := by
  induction h generalizing js js' with
  | nil => cases h' <;> simp
  | cons hi _ ih =>
    cases h' with
    | nil => simp
    | cons hj hjs => rw [List.cons.injEq, List.cons.injEq, hi.eq_iff hj, ih hjs]

theorem Shapes.eq_iff {s s' t t' : Shape} (h : o.Shapes s s') (h' : o.Shapes t t') :
    t = s ↔ t' = s' := by
  cases h <;> cases h' <;> simp only [reduceCtorEq, Shape.vector.injEq, Shape.pointer.injEq,
    Shape.function.injEq, Shape.int.injEq, Shape.float.injEq]
  case vector.vector hi _ _ _ hj _ => rw [hi.eq_iff hj]
  case pointer.pointer hi _ _ _ hj => rw [hi.eq_iff hj]
  case function.function hi his _ _ _ _ hj hjs => rw [hi.eq_iff hj, forall₂_moves_eq_iff his hjs]

theorem Keys.eq_iff {k k' l l' : Key} (h : o.Keys k k') (h' : o.Keys l l') : l = k ↔ l' = k' := by
  cases h <;> cases h' <;> simp only [reduceCtorEq, Key.type.injEq, Key.shape.injEq,
    Key.constant.injEq, Key.variable.injEq, Key.function.injEq]
  case shape.shape hs _ _ ht => exact hs.eq_iff ht
  case constant.constant hi _ _ _ hj _ => rw [hi.eq_iff hj]

/-- Both slots are put into the same state. -/
theorem Sessions.settle {s s' : Session} (hs : o.Sessions s s') {k k' : Key} (hk : o.Keys k k')
    {slot : SlotState k.Value} {slot' : SlotState k'.Value}
    (hslot : o.Slots k k' (some slot) (some slot')) :
    o.Sessions (s.settle k slot) (s'.settle k' slot') := by
  refine ⟨fun l l' hl => ?_, hs.shared⟩
  by_cases hsame : l = k
  · obtain rfl : l' = k' := (hk.eq_iff hl).mp hsame
    subst hsame
    rw [State.settle, State.settle, Table.get?_set_self, Table.get?_set_self]
    exact hslot
  · have hsame' : l' ≠ k' := fun heq => hsame ((hk.eq_iff hl).mpr heq)
    rw [State.settle, State.settle, Table.get?_set_of_ne hsame, Table.get?_set_of_ne hsame']
    exact hs.slots l l' hl

/-! ## Instructions -/

theorem map_raw_eq {is is' : List Id} (h : List.Forall₂ o.Moves is is') :
    is'.map Id.raw = (is.map Id.raw).map o.word := by
  induction h with
  | nil => rfl
  | cons hi _ ih => rw [List.map_cons, hi.eq, ih]; rfl

theorem raw_le {is is' : List Id} (h : List.Forall₂ o.Moves is is') :
    ∀ w ∈ is.map Id.raw, w.toNat ≤ o.last := by
  induction h with
  | nil => exact nofun
  | cons hi _ ih => exact List.forall_mem_cons.mpr ⟨hi.le, ih⟩

/-- Instructions differ in their ids only if it is ids that stand for each other that the layout takes for
ids. -/
theorem instructions_of_ids {i i' : Instruction} {is is' : List Id} (h : List.Forall₂ o.Moves is is')
    (hids : i.ids = is.map Id.raw) (heq : i' = i.mapIds o.word) : o.Instructions i i' :=
  ⟨heq, hids ▸ raw_le h⟩

/-- Instructions all operands of which are taken for ids. -/
theorem instructions_of_all (op : Op)
    (hop : ∀ i : Instruction, i.op? = some op → i.nominalIdPositions = List.range i.operands.length)
    {is is' : List Id} (h : List.Forall₂ o.Moves is is') :
    o.Instructions ⟨op.code, is.map Id.raw⟩ ⟨op.code, is'.map Id.raw⟩ := by
  have hknown : (⟨op.code, is.map Id.raw⟩ : Instruction).op? = some op := Op.ofCode?_code op
  have hpositions : (⟨op.code, is.map Id.raw⟩ : Instruction).idPositions = List.range is.length := by
    rw [Instruction.idPositions, hop _ hknown, List.length_map]
    exact List.filter_eq_self.mpr (by simp)
  refine instructions_of_ids h ?_ (congrArg (Instruction.mk op.code) (List.ext_getElem? fun p => ?_))
  · rw [Instruction.ids, hpositions]
    have hlength : is.length = (is.map Id.raw).length := (List.length_map _).symm
    rw [hlength, Layout.filterMap_getElem?_range]
  · change _ = ((⟨op.code, is.map Id.raw⟩ : Instruction).mapIds o.word).operands[p]?
    rw [Instruction.getElem?_operands_mapIds, hpositions, map_raw_eq h, List.getElem?_map]
    refine Option.map_congr fun w hw => ?_
    have hin : p < is.length := by simpa using (List.getElem?_eq_some_iff.mp hw).1
    rw [if_pos (List.mem_range.mpr hin)]

theorem Shapes.instruction {s s' : Shape} (h : o.Shapes s s') {i i' : Id} (hi : o.Moves i i') :
    o.Instructions ⟨s.op.code, i.raw :: s.operands⟩ ⟨s'.op.code, i'.raw :: s'.operands⟩ := by
  cases h with
  | void => exact instructions_of_ids (.cons hi .nil) rfl (by rw [hi.eq]; rfl)
  | int width signed => exact instructions_of_ids (.cons hi .nil) rfl (by rw [hi.eq]; rfl)
  | float width => exact instructions_of_ids (.cons hi .nil) rfl (by rw [hi.eq]; rfl)
  | vector helement size =>
    refine instructions_of_ids (.cons hi (.cons helement .nil)) rfl ?_
    rw [hi.eq, Shape.operands, helement.eq]
    rfl
  | pointer storage hpointee =>
    refine instructions_of_ids (.cons hi (.cons hpointee .nil)) rfl ?_
    rw [hi.eq, Shape.operands, hpointee.eq]
    rfl
  | function hreturn hparameters =>
    refine instructions_of_all .typeFunction (fun i hi => ?_) (.cons hi (.cons hreturn hparameters))
    simp only [Instruction.nominalIdPositions, hi]

theorem Declarations.instruction {d d' : Declaration} (h : o.Declarations d d') {i i' : Id}
    (hi : o.Moves i i') : o.Instructions (d.instruction i) (d'.instruction i') := by
  cases h with
  | struct hmembers =>
    refine instructions_of_all .typeStruct (fun i hi => ?_) (.cons hi hmembers)
    simp only [Instruction.nominalIdPositions, hi]
  | shape hs => exact hs.instruction hi
  | constant htype bits =>
    refine instructions_of_ids (.cons htype (.cons hi .nil)) rfl ?_
    rw [Declaration.instruction, htype.eq, hi.eq]
    rfl
  | «variable» htype storage =>
    refine instructions_of_ids (.cons htype (.cons hi .nil)) rfl ?_
    rw [Declaration.instruction, htype.eq, hi.eq]
    rfl

theorem instructions_decoration {target target' : Id} (h : o.Moves target target') (location : Word) :
    o.Instructions (decoration target location) (decoration target' location) := by
  refine instructions_of_ids (.cons h .nil) rfl ?_
  rw [decoration, h.eq]
  rfl

/-! ## Tasks -/

variable {α α' β β' : Type}

/-- Both succeed, with related values, or both fail. -/
def Results (R : α → α' → Prop) : Result lowering α → Result lowering α' → Prop
  | .ok v, .ok v' => R v v'
  | .error _, .error _ => True
  | _, _ => False

variable (o) in
/-- Two tasks take the same turns as long as what they are answered stands for each other. -/
inductive Tasks (R : α → α' → Prop) : Construct α → Construct α' → Prop
  | done {r : Result lowering α} {r' : Result lowering α'} (h : Results R r r') :
      Tasks R (.done r) (.done r')
  | act {x x' : Action} {next : x.Answer → Construct α} {next' : x'.Answer → Construct α'}
      (hx : o.Actions x x') (h : ∀ v v', o.Answers x x' v v' → Tasks R (next v) (next' v')) :
      Tasks R (.act x next) (.act x' next')
  | request {k k' : Key} {next : Result lowering k.Value → Construct α}
      {next' : Result lowering k'.Value → Construct α'} (hk : o.Keys k k')
      (h : ∀ r r', Results (o.Values k k') r r' → Tasks R (next r) (next' r')) :
      Tasks R (.request k next) (.request k' next')

namespace Tasks

variable {R R' : α → α' → Prop} {S : β → β' → Prop} {t : Construct α} {t' : Construct α'}
  {f : α → Construct β} {f' : α' → Construct β'}

theorem mono (ht : o.Tasks R t t') (himp : ∀ v v', R v v' → R' v v') : o.Tasks R' t t' := by
  induction ht with
  | @done r r' h =>
    refine .done ?_
    cases r <;> cases r'
    · trivial
    · exact h
    · exact h
    · exact himp _ _ h
  | act hx _ ih => exact .act hx ih
  | request hk _ ih => exact .request hk ih

theorem bind (ht : o.Tasks R t t') (hf : ∀ v v', R v v' → o.Tasks S (f v) (f' v')) :
    o.Tasks S (t >>= f) (t' >>= f') := by
  change o.Tasks S (t.bind f) (t'.bind f')
  induction ht with
  | @done r r' h =>
    cases r <;> cases r'
    · exact .done trivial
    · exact h.elim
    · exact h.elim
    · exact hf _ _ h
  | act hx _ ih => exact .act hx ih
  | request hk _ ih => exact .request hk ih

theorem pure {v : α} {v' : α'} (h : R v v') :
    o.Tasks R (Pure.pure v : Construct α) (Pure.pure v' : Construct α') :=
  .done h

theorem fail (cause cause' : Fault) :
    o.Tasks R (Task.fail (I := lowering) cause) (Task.fail (I := lowering) cause') :=
  .done trivial

theorem ofOption (cause cause' : Fault) {x : Option α} {x' : Option α'} (h : Option.Rel R x x') :
    o.Tasks R (Task.ofOption (I := lowering) cause x) (Task.ofOption (I := lowering) cause' x') := by
  cases h with
  | none => exact .fail _ _
  | some h => exact .pure h

/-- The same is looked up. -/
theorem lookup (cause : Fault) (x : Option α) :
    o.Tasks (· = ·) (Task.ofOption (I := lowering) cause x) (Task.ofOption (I := lowering) cause x) := by
  cases x with
  | none => exact .fail _ _
  | some v => exact .pure rfl

theorem map {g : α → β} {g' : α' → β'} (ht : o.Tasks (fun v v' => S (g v) (g' v')) t t') :
    o.Tasks S (g <$> t) (g' <$> t') := by
  rw [← bind_pure_comp, ← bind_pure_comp]
  exact ht.bind fun _ _ hv => .pure hv

/-- Tasks for the members of one list. -/
theorem mapM {γ : Type} {xs : List γ} {g : γ → Construct β} {g' : γ → Construct β'}
    (hg : ∀ x, o.Tasks S (g x) (g' x)) : o.Tasks (List.Forall₂ S) (xs.mapM g) (xs.mapM g') := by
  induction xs with
  | nil => exact .pure .nil
  | cons x xs ih =>
    rw [List.mapM_cons, List.mapM_cons]
    refine .bind (hg x) fun v v' hv => ?_
    exact .bind ih fun vs vs' hvs => .pure (.cons hv hvs)

theorem forM {γ : Type} {xs : List γ} {g g' : γ → Construct PUnit}
    (hg : ∀ x, o.Tasks (fun _ _ => True) (g x) (g' x)) :
    o.Tasks (fun _ _ => True) (xs.forM g) (xs.forM g') := by
  induction xs with
  | nil => exact .pure trivial
  | cons x xs ih => exact .bind (hg x) fun _ _ _ => ih

theorem perform {x x' : Action} (hx : o.Actions x x') : o.Tasks (o.Answers x x')
    (Task.perform (I := lowering) x) (Task.perform (I := lowering) x') :=
  .act hx fun _ _ hv => .pure hv

theorem ask {k k' : Key} (hk : o.Keys k k') : o.Tasks (o.Values k k')
    (Task.ask (I := lowering) k) (Task.ask (I := lowering) k') :=
  .request hk fun _ _ hr => .done hr

end Tasks

end Offset

/-! ## Ids are never given back -/

section Issued

variable {a : Assembly} {α : Type}

theorem Emission.issued_le_act (x : Action) (e : Emission) :
    e.ids.issued ≤ (Emission.act x e).2.ids.issued := by
  cases x <;> simp [Emission.act, IdSource.next]

theorem issued_le_run {answer : Answerer lowering Emission}
    (hanswer : ∀ k (s : Session), s.shared.ids.issued ≤ (answer k s).2.shared.ids.issued)
    (t : Construct α) (s : Session) :
    s.shared.ids.issued ≤ (t.run (recipes a) answer s).2.shared.ids.issued := by
  induction t generalizing s with
  | done result => exact le_rfl
  | panic => exact le_rfl
  | act x next ih => exact (s.shared.issued_le_act x).trans (ih _ { s with shared := _ })
  | peek k next ih => exact ih _ s
  | request k next ih =>
    have hfirst := hanswer k s
    rw [Task.run]
    rcases hresult : answer k s with ⟨_ | _ | _, s'⟩ <;> rw [hresult] at hfirst
    · exact hfirst.trans (ih _ s')
    · exact hfirst
    · exact hfirst

theorem issued_le_resolve (depth : Nat) (k : Key) (s : Session) :
    s.shared.ids.issued ≤ (resolve (recipes a) depth k s).2.shared.ids.issued := by
  induction depth generalizing k s with
  | zero => exact le_rfl
  | succ depth ih =>
    have hrun := issued_le_run (a := a) (fun k s => ih k s) ((recipes a).factory k)
      (s.settle k .building)
    rw [resolve]
    split
    · exact le_rfl
    · exact le_rfl
    · exact le_rfl
    · rcases hresult : ((recipes a).factory k).run (recipes a) (resolve (recipes a) depth)
        (s.settle k .building) with ⟨_ | _ | _, s'⟩ <;> rw [hresult] at hrun <;> exact hrun

end Issued

/-! ## Runs -/

namespace Offset

variable {o : Offset} {a : Assembly} {α α' : Type} {R : α → α' → Prop} {s s' : Session}

/-- The id issued next. -/
theorem Emissions.next {e e' : Emission} (he : o.Emissions e e') (hlast : e.ids.issued + 1 ≤ o.last) :
    o.Moves e.ids.next.1 e'.ids.next.1 := by
  have hfits := o.fits
  have hsize : UInt32.size = 4294967296 := rfl
  constructor
  · simp only [IdSource.next, word, he.issued, ← UInt32.ofNat_add]
    congr 1
    omega
  · rw [IdSource.next, UInt32.toNat_ofNat_of_lt' (by omega)]
    exact hlast

/-- How both runs end. -/
def Outcomes (o : Offset) (R : α → α' → Prop) :
    Outcome Key (Result lowering α) × Session → Outcome Key (Result lowering α') × Session → Prop
  | (.returned r, s), (.returned r', s') => Results R r r' ∧ o.Sessions s s'
  | (.panicked _, _), (.panicked _, _) => True
  | (.exhausted, _), (.exhausted, _) => True
  | _, _ => False

/-- Actions that stand for each other answer with what does, and write what does. -/
theorem Emissions.act {e e' : Emission} (he : o.Emissions e e') {x x' : Action} (hx : o.Actions x x')
    (hlast : (Emission.act x e).2.ids.issued ≤ o.last) :
    o.Answers x x' (Emission.act x e).1 (Emission.act x' e').1 ∧
      o.Emissions (Emission.act x e).2 (Emission.act x' e').2 := by
  have hissued : e'.ids.issued + 1 = e.ids.issued + 1 + o.amount := by
    have := he.issued
    omega
  cases hx with
  | freshId => exact ⟨he.next hlast, hissued, he.declared, he.annotated, he.globals⟩
  | declare hd =>
    have hnext := he.next hlast
    refine ⟨hnext, hissued, ?_, he.annotated, he.globals⟩
    exact List.rel_append he.declared (.cons (hd.instruction hnext) .nil)
  | decorate htarget location =>
    refine ⟨trivial, he.issued, he.declared, ?_, he.globals⟩
    exact List.rel_append he.annotated (.cons (instructions_decoration htarget location) .nil)
  | expose hg =>
    exact ⟨trivial, he.issued, he.declared, he.annotated, List.rel_append he.globals (.cons hg .nil)⟩

/-- Runs of related tasks end alike if the answers to their requests do. -/
theorem run_moves {answer : Answerer lowering Emission}
    (hanswer : ∀ k k' s s', o.Keys k k' → o.Sessions s s' →
      (answer k s).2.shared.ids.issued ≤ o.last → o.Outcomes (o.Values k k') (answer k s) (answer k' s'))
    (hgrows : ∀ k (s : Session), s.shared.ids.issued ≤ (answer k s).2.shared.ids.issued)
    {t : Construct α} {t' : Construct α'} (ht : o.Tasks R t t') (hs : o.Sessions s s')
    (hlast : (t.run (recipes a) answer s).2.shared.ids.issued ≤ o.last) :
    o.Outcomes R (t.run (recipes a) answer s) (t'.run (recipes a) answer s') := by
  induction ht generalizing s s' with
  | done h => exact ⟨h, hs⟩
  | @act x x' next next' hx _ ih =>
    have hacted : (Emission.act x s.shared).2.ids.issued ≤ o.last :=
      (issued_le_run hgrows (next _) { s with shared := _ }).trans hlast
    obtain ⟨hreply, hshared⟩ := hs.shared.act hx hacted
    exact ih _ _ hreply ⟨hs.slots, hshared⟩ hlast
  | @request k k' next next' hk _ ih =>
    rw [Task.run] at hlast ⊢
    rw [Task.run]
    -- The bound on ids holds for the first part of the run, since ids are only ever issued.
    have hfirst : (answer k s).2.shared.ids.issued ≤ o.last := by
      rcases hresult : answer k s with ⟨_ | _ | _, s₁⟩ <;> rw [hresult] at hlast
      · exact (issued_le_run hgrows _ s₁).trans hlast
      · exact hlast
      · exact hlast
    have hends := hanswer k k' s s' hk hs hfirst
    rcases hresult : answer k s with ⟨_ | _ | _, s₁⟩ <;>
      rcases hresult' : answer k' s' with ⟨_ | _ | _, s₁'⟩ <;>
      rw [hresult, hresult'] at hends <;> rw [hresult] at hlast <;> try exact hends.elim
    · exact ih _ _ hends.1 hends.2 hlast
    · trivial
    · trivial

/-- The factories of keys that stand for each other take the same turns. -/
def FactoriesMove (o : Offset) (a : Assembly) : Prop :=
  ∀ k k', o.Keys k k' → o.Tasks (o.Values k k') ((recipes a).factory k) ((recipes a).factory k')

/-- Requests for keys that stand for each other are answered with what stands for each other. -/
theorem resolve_moves (hfactories : o.FactoriesMove a) (depth : Nat) {k k' : Key} (hk : o.Keys k k')
    (hs : o.Sessions s s') (hlast : (resolve (recipes a) depth k s).2.shared.ids.issued ≤ o.last) :
    o.Outcomes (o.Values k k') (resolve (recipes a) depth k s) (resolve (recipes a) depth k' s') := by
  induction depth generalizing k k' s s' with
  | zero => trivial
  | succ depth ih =>
    have hslot := hs.slots k k' hk
    rw [resolve] at hlast ⊢
    rw [resolve]
    dsimp only at hlast ⊢
    generalize s.slots.get? k = slot at hlast hslot ⊢
    generalize s'.slots.get? k' = slot' at hslot ⊢
    cases hslot with
    | building => exact ⟨trivial, hs⟩
    | failed => exact ⟨trivial, hs⟩
    | ready hv => exact ⟨hv, hs⟩
    -- A free slot is taken on both sides before its factory runs.
    | free =>
      dsimp only at hlast ⊢
      have hrun := run_moves (a := a) (fun k k' s s' hk hs => ih hk hs)
        (issued_le_resolve depth) (hfactories k k' hk) (hs.settle hk .building)
      rcases hresult : ((recipes a).factory k).run (recipes a) (resolve (recipes a) depth)
          (s.settle k .building) with ⟨_ | _ | _, s₁⟩ <;>
        rcases hresult' : ((recipes a).factory k').run (recipes a) (resolve (recipes a) depth)
          (s'.settle k' .building) with ⟨_ | _ | _, s₁'⟩ <;>
        rw [hresult, hresult'] at hrun <;> rw [hresult] at hlast <;> replace hrun := hrun hlast <;>
        try exact hrun.elim
      · next r r' =>
        refine ⟨hrun.1, hrun.2.settle hk ?_⟩
        rcases r with e | v <;> rcases r' with e' | v'
        · exact .failed
        · exact hrun.1.elim
        · exact hrun.1.elim
        · exact .ready hrun.1
      · trivial
      · trivial

/-- Related tasks that are carried out on their own end alike. -/
theorem execute_moves (hfactories : o.FactoriesMove a) {t : Construct α} {t' : Construct α'}
    (ht : o.Tasks R t t') (hs : o.Sessions s s')
    (hlast : (s.run a t).2.shared.ids.issued ≤ o.last) : o.Outcomes R (s.run a t) (s'.run a t') :=
  run_moves (fun _ _ _ _ hk hs => resolve_moves hfactories a.depth hk hs) (issued_le_resolve a.depth)
    ht hs hlast

end Offset

end ShaderLowering
