import Mathlib.Data.List.Basic
import ShaderLowering.Lowering.Emission
import ShaderLowering.Lowering.Representation
import ShaderLowering.Lowering.Specialization

/-!
# Names

Which number an id gets depends on the order in which threads happen to ask for it.  What the id
stands for does not: a `Name` says what that is, in terms of the assembly alone.  Types are named by
their structure (structs by the front-end type that they stand for), constants by their type and bits,
global variables by their field, and every id inside a function by the key of the function and its
place in the order in which the function takes ids.

A run is then described by the list of names in the order in which they were given ids, and `ident`
reads the id of a name off such a list.  As the list only grows at its end, ids do not change
(`ident_append`), and distinct names have distinct ids as long as the numbers fit a word
(`ident_injective`).
-/

namespace ShaderLowering

open Spirv

/-- What the type of a value is. -/
inductive ValueType where
  | void
  | int (width : Word) (signed : Bool)
  | float (width : Word)
  | vector (element : ValueType) (size : Word)
  | struct (id : TypeId)
  deriving DecidableEq, Repr

namespace Assembly

/-- The type that stands for a front-end type, if it has at most a number of levels: a vector is one
level above its elements. -/
def valueTypeWithin? (a : Assembly) : Nat → TypeId → Option ValueType
  | 0, _ => none
  | levels + 1, id => do
    let t ← a.type? id
    match t.representation? with
    | none => some (.struct id)
    | some none => none
    | some (some name) =>
      match Representation.parse name with
      | .void => some .void
      | .int width signed => some (.int width signed)
      | .float width => some (.float width)
      | .vector element size => do
        let e ← a.findType? element
        let inner ← valueTypeWithin? a levels e.id
        let n ← size
        some (.vector inner n)
      | .malformed => none
      | .unknown => none

/-- The type that stands for a front-end type, if there is one.  A vector with more levels than there
are types is among its own elements, so it has none. -/
def valueType? (a : Assembly) (id : TypeId) : Option ValueType :=
  a.valueTypeWithin? a.types.size id

/-- The type that stands for a front-end type; void where there is none. -/
def valueType (a : Assembly) (id : TypeId) : ValueType :=
  (a.valueType? id).getD .void

/-- The types of the members of the struct that stands for a front-end type. -/
def members (a : Assembly) (id : TypeId) : List ValueType :=
  match a.type? id with
  | some t => (a.instanceFields t).map fun f => a.valueType f.type
  | none => []

/-- Where the global variable behind a field lives. -/
def storage (a : Assembly) (id : FieldId) : StorageClass :=
  match a.field? id with
  | some f => f.storage.storageClass
  | none => .private

/-- No global variable belongs to a function. -/
theorem code_storage_ne (a : Assembly) (id : FieldId) :
    (a.storage id).code ≠ StorageClass.function.code := by
  rw [storage]
  split
  · next f _ => cases f.storage <;> decide
  · decide

/-- The type of the global variable behind a field. -/
def fieldType (a : Assembly) (id : FieldId) : ValueType :=
  match a.field? id with
  | some f => a.valueType f.type
  | none => .void

end Assembly

/-- What an id stands for. -/
inductive Name where
  | value (type : ValueType)
  | pointer (storage : StorageClass) (pointee : ValueType)
  | signature (returnType : ValueType) (parameters : List ValueType)
  | constant (type : ValueType) (bits : Word)
  | global (field : FieldId)
  /-- The id that a function takes after so many others. -/
  | own (key : FunctionKey) (number : Nat)
  deriving DecidableEq, Repr

/-! ## Ids of names -/

/-- The id of a name, where names were given ids in the order of a list. -/
def ident (ν : List Name) (n : Name) : Id :=
  ⟨UInt32.ofNat (ν.idxOf n + 1)⟩

section Ident

variable {ν : List Name} {n n' : Name}

theorem ident_append (h : n ∈ ν) (l : List Name) : ident (ν ++ l) n = ident ν n := by
  rw [ident, ident, List.idxOf_append_of_mem h]

theorem toNat_ident (hsize : ν.length < UInt32.size) (h : n ∈ ν) :
    (ident ν n).raw.toNat = ν.idxOf n + 1 := by
  have hlt : ν.idxOf n < ν.length := List.idxOf_lt_length_of_mem h
  exact UInt32.toNat_ofNat_of_lt' (by omega)

theorem ident_injective (hsize : ν.length < UInt32.size) (h : n ∈ ν) (h' : n' ∈ ν)
    (heq : ident ν n = ident ν n') : n = n' := by
  have hnat : ν.idxOf n + 1 = ν.idxOf n' + 1 := by
    rw [← toNat_ident hsize h, ← toNat_ident hsize h', heq]
  exact (List.idxOf_inj h).mp (Nat.succ.inj hnat)

/-- The next name gets the next id. -/
theorem ident_concat (h : n ∉ ν) : ident (ν ++ [n]) n = (IdSource.next ⟨ν.length⟩).1 := by
  rw [ident, List.idxOf_append_of_notMem h, IdSource.next]
  simp

end Ident

namespace Name

/-- The names that the declaration of a name refers to. -/
def parts (a : Assembly) : Name → List Name
  | .value (.vector element _) => [.value element]
  | .value (.struct id) => (a.members id).map .value
  | .value _ => []
  | .pointer _ pointee => [.value pointee]
  | .signature returnType parameters => .value returnType :: parameters.map .value
  | .constant type _ => [.value type]
  | .global field => [.pointer (a.storage field) (a.fieldType field)]
  | .own _ _ => []

/-- The key whose construction gives a name its id. -/
def key (ν : List Name) : Name → Key
  | .value .void => .shape .void
  | .value (.int width signed) => .shape (.int width signed)
  | .value (.float width) => .shape (.float width)
  | .value (.vector element size) => .shape (.vector (ident ν (.value element)) size)
  | .value (.struct id) => .type id
  | .pointer storage pointee => .shape (.pointer storage (ident ν (.value pointee)))
  | .signature returnType parameters =>
    .shape (.function (ident ν (.value returnType)) (parameters.map fun t => ident ν (.value t)))
  | .constant type bits => .constant (ident ν (.value type)) bits
  | .global field => .variable field
  | .own key _ => .function key

/-- What is written down when a name gets its id; nothing for an id inside a function. -/
def declaration? (a : Assembly) (ν : List Name) : Name → Option Declaration
  | .value (.struct id) => some (.struct ((a.members id).map fun t => ident ν (.value t)))
  | .global field => some (.variable
      (ident ν (.pointer (a.storage field) (a.fieldType field))) (a.storage field))
  | n =>
    match n.key ν with
    | .shape s => some (.shape s)
    | .constant type bits => some (.constant type bits)
    | _ => none

/-- Where a name is that of a struct, the struct is what stands for the front-end type. -/
def Genuine (a : Assembly) : Name → Prop
  | .value (.struct id) => a.valueType id = .struct id
  | _ => True

/-- The instruction that declares a name. -/
def line? (a : Assembly) (ν : List Name) (n : Name) : Option Instruction :=
  (n.declaration? a ν).map fun d => d.instruction (ident ν n)

end Name

/-! ## Growing lists of names -/

namespace Name

variable {a : Assembly} {ν : List Name} {n n' : Name}

theorem ident_map_append {types : List ValueType} (h : ∀ t ∈ types, .value t ∈ ν) (l : List Name) :
    (types.map fun t => ident (ν ++ l) (.value t)) = types.map fun t => ident ν (.value t) :=
  List.map_congr_left fun t ht => ident_append (h t ht) l

/-- A name whose parts have ids belongs to the same key from then on. -/
theorem key_append (h : ∀ p ∈ n.parts a, p ∈ ν) (l : List Name) : n.key (ν ++ l) = n.key ν := by
  cases n with
  | value type =>
    cases type with
    | vector element size =>
      have hpart := h (.value element) (by simp [parts])
      simp only [key, ident_append hpart]
    | _ => rfl
  | pointer storage pointee =>
    have hpart := h (.value pointee) (by simp [parts])
    simp only [key, ident_append hpart]
  | signature returnType parameters =>
    have hreturn := h (.value returnType) (by simp [parts])
    have hparameters : ∀ t ∈ parameters, .value t ∈ ν := fun t ht =>
      h (.value t) (by simp [parts, ht])
    simp only [key, ident_append hreturn, ident_map_append hparameters]
  | constant type bits =>
    have hpart := h (.value type) (by simp [parts])
    simp only [key, ident_append hpart]
  | global field => rfl
  | own key number => rfl

theorem declaration?_append (h : ∀ p ∈ n.parts a, p ∈ ν) (l : List Name) :
    n.declaration? a (ν ++ l) = n.declaration? a ν := by
  have hkey := key_append h l
  cases n with
  | value type =>
    cases type with
    | struct id =>
      have hmembers : ∀ t ∈ a.members id, .value t ∈ ν := fun t ht =>
        h (.value t) (by simp [parts, ht])
      simp only [declaration?, ident_map_append hmembers]
    | _ => simp only [declaration?, hkey]
  | global field =>
    have hpart := h (.pointer (a.storage field) (a.fieldType field)) (by simp [parts])
    simp only [declaration?, ident_append hpart]
  | _ => simp only [declaration?, hkey]

theorem line?_append (hn : n ∈ ν) (h : ∀ p ∈ n.parts a, p ∈ ν) (l : List Name) :
    n.line? a (ν ++ l) = n.line? a ν := by
  rw [line?, line?, declaration?_append h, ident_append hn]

theorem ident_map_injective (hsize : ν.length < UInt32.size) {types types' : List ValueType}
    (h : ∀ t ∈ types, .value t ∈ ν) (h' : ∀ t ∈ types', .value t ∈ ν)
    (heq : (types.map fun t => ident ν (.value t)) = types'.map fun t => ident ν (.value t)) :
    types = types' := by
  induction types generalizing types' with
  | nil =>
    cases types' with
    | nil => rfl
    | cons t' types' => cases heq
  | cons t types ih =>
    cases types' with
    | nil => cases heq
    | cons t' types' =>
      obtain ⟨hhead, htail⟩ := List.cons.inj heq
      have hsame := ident_injective hsize (h t (by simp)) (h' t' (by simp)) hhead
      rw [Name.value.inj hsame, ih (fun t ht => h t (by simp [ht])) (fun t ht => h' t (by simp [ht]))
        htail]

theorem genuine_of_key (hkey : ∀ id, n.key ν ≠ .type id) : n.Genuine a := by
  cases n with
  | value type =>
    cases type with
    | struct id => exact absurd rfl (hkey id)
    | _ => trivial
  | _ => trivial

/-- Distinct names belong to distinct keys, except that a function takes many ids. -/
theorem key_injective (hsize : ν.length < UInt32.size) (h : ∀ p ∈ n.parts a, p ∈ ν)
    (h' : ∀ p ∈ n'.parts a, p ∈ ν) (hleaf : ∀ key, n.key ν ≠ .function key)
    (heq : n.key ν = n'.key ν) : n = n' := by
  -- Ids tell the parts apart, as all of them are known.
  have hident : ∀ t t', .value t ∈ n.parts a → .value t' ∈ n'.parts a →
      ident ν (.value t) = ident ν (.value t') → t = t' := fun t t' ht ht' hid =>
    Name.value.inj (ident_injective hsize (h _ ht) (h' _ ht') hid)
  -- Keys of different kinds differ, so only names of one kind remain.
  rcases n with ⟨_ | ⟨width, signed⟩ | width | ⟨element, size⟩ | id⟩ | ⟨storage, pointee⟩ |
      ⟨returnType, parameters⟩ | ⟨type, bits⟩ | field | ⟨key, number⟩ <;>
    rcases n' with ⟨_ | ⟨width', signed'⟩ | width' | ⟨element', size'⟩ | id'⟩ |
      ⟨storage', pointee'⟩ | ⟨returnType', parameters'⟩ | ⟨type', bits'⟩ | field' |
      ⟨key', number'⟩ <;>
    simp only [Name.key, reduceCtorEq, Key.shape.injEq, Key.constant.injEq, Key.type.injEq,
      Key.variable.injEq, Shape.int.injEq, Shape.float.injEq, Shape.vector.injEq,
      Shape.pointer.injEq, Shape.function.injEq] at heq
  case value.void.value.void => rfl
  case value.int.value.int => rw [heq.1, heq.2]
  case value.float.value.float => rw [heq]
  case value.vector.value.vector =>
    rw [hident element element' (by simp [parts]) (by simp [parts]) heq.1, heq.2]
  case value.struct.value.struct => rw [heq]
  case pointer.pointer =>
    rw [hident pointee pointee' (by simp [parts]) (by simp [parts]) heq.2, heq.1]
  case signature.signature =>
    have hparameters : parameters = parameters' := ident_map_injective hsize
      (fun t ht => h _ (by simp [parts, ht])) (fun t ht => h' _ (by simp [parts, ht])) heq.2
    rw [hident returnType returnType' (by simp [parts]) (by simp [parts]) heq.1, hparameters]
  case constant.constant =>
    rw [hident type type' (by simp [parts]) (by simp [parts]) heq.1, heq.2]
  case global.global => rw [heq]
  case own.own => exact absurd rfl (hleaf key)

end Name

/-- Every name comes after the names that its declaration refers to. -/
def Grounded (a : Assembly) (ν : List Name) : Prop :=
  ∀ l n, l ++ [n] <+: ν → ∀ p ∈ n.parts a, p ∈ l

namespace Grounded

variable {a : Assembly} {ν : List Name} {n : Name}

theorem nil : Grounded a [] := by
  intro l n hbegins
  simp at hbegins

theorem concat (h : Grounded a ν) (hn : ∀ p ∈ n.parts a, p ∈ ν) : Grounded a (ν ++ [n]) := by
  intro l n' hbegins
  rcases List.prefix_concat_iff.mp hbegins with heq | hbegins
  · obtain ⟨rfl, hlast⟩ := List.append_inj' heq rfl
    obtain rfl := (List.cons.inj hlast).1
    exact hn
  · exact h l n' hbegins

theorem parts_mem (h : Grounded a ν) (hn : n ∈ ν) : ∀ p ∈ n.parts a, p ∈ ν := by
  intro p hp
  obtain ⟨l, l', rfl⟩ := List.append_of_mem hn
  have hmem := h l n ⟨l', by simp⟩ p hp
  exact List.mem_append_left _ hmem

end Grounded

end ShaderLowering
