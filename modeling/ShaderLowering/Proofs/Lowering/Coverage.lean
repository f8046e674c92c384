import ShaderLowering.Proofs.Lowering.Declarations
import ShaderLowering.Proofs.Lowering.Pools

/-!
# What a run gives ids to

A run gives no id for its own sake: what it declares, it declares for a function that its roots lead to.
So a set of names that holds what these functions mention, and with a name its parts, holds every name
that the run declares (`Covers.mem`).  Which names those are is therefore the same for all runs with the
same roots, and everything declared is referred to.
-/

namespace ShaderLowering

open Spirv (Id Word)

variable {a : Assembly} {roots : Key → Prop} {S : Name → Prop} {h : History} {e : Emission} {n : Name}
  {k : Key}

/-- A set of names holds what the functions of a run mention, and with a name its parts. -/
structure Covers (a : Assembly) (roots : Key → Prop) (S : Name → Prop) : Prop where
  lines : ∀ key, Reached a roots (.function key) → ∀ line ∈ a.lines key, ∀ n ∈ line.names, S n
  parts : ∀ n, S n → ∀ p ∈ n.parts a, S p

/-- The type of a vector is that of its elements, so and so often. -/
theorem Assembly.valueType_of_element {id : TypeId} {t e : TypeDef} {name element : String}
    {size : Option Word} (hconstructible : Constructible a (.type id)) (ht : a.type? id = some t)
    (hname : t.representation? = some (some name))
    (hparse : Representation.parse name = .vector element size)
    (helement : a.findType? element = some e) :
    ∃ n, a.valueType id = .vector (a.valueType e.id) n := by
  have hsupported := hconstructible.sound.supported ht hname
  rw [hparse] at hsupported
  obtain ⟨n, rfl⟩ := Option.isSome_iff_exists.mp hsupported.2
  obtain ⟨type, htype⟩ := Option.isSome_iff_exists.mp
    (valueType?_isSome (hconstructible.needs (.element ht hname hparse helement)))
  refine ⟨n, ?_⟩
  rw [valueType_eq (valueType?_vector ht hname hparse helement htype), valueType_eq htype]

namespace Specialized

variable {p : Specialized} {id : TypeId}

/-- The types that a function is made of are on its lines, or are what pointers on its lines point
to. -/
theorem mem_lines_of_mem_types (hid : id ∈ p.types) : ∃ line ∈ p.lines a,
    .value (a.valueType id) ∈ line.names ∨ .pointer .function (a.valueType id) ∈ line.names := by
  rcases List.mem_append.mp hid with hid | hslot
  · rcases List.mem_append.mp hid with hreturn | hparameter
    · refine ⟨p.functionLine a, p.functionLine_mem a, .inl ?_⟩
      have hvalue : p.returnValue a = a.valueType id := by
        rw [returnValue, Option.mem_toList.mp hreturn]
      simp [functionLine, Line.names, Operand.name?, hvalue]
    · obtain ⟨i, hi⟩ := List.mem_iff_getElem?.mp hparameter
      refine ⟨p.parameterLine a id i, parameterLine_mem a hi, .inl ?_⟩
      simp [parameterLine, Line.names, Operand.name?]
  -- The type of a slot is only pointed to.
  · obtain ⟨i, hi⟩ := List.mem_iff_getElem?.mp hslot
    refine ⟨p.slotLine a id i, slotLine_mem a hi, .inr ?_⟩
    simp [slotLine, Line.names, Operand.name?]

end Specialized

namespace Covers

variable (hS : Covers a roots S)

include hS

theorem function {key : FunctionKey} (hreached : Reached a roots (.function key))
    (hmentions : Mentions a (.function key) n) : S n := by
  cases hmentions with
  | function hline hn => exact hS.lines key hreached _ hline n hn

/-- What the roots lead to is covered. -/
theorem of_reached (hroots : ∀ k, roots k → Constructible a k)
    (hfunctions : ∀ k, roots k → ∃ key, k = .function key) (hk : Reached a roots k) :
    (∀ n, Mentions a k n → S n) ∧ ∀ field, k = .variable field → S (.global field) := by
  obtain ⟨root, hroot, hpath⟩ := hk
  induction hpath with
  | refl =>
    obtain ⟨key, rfl⟩ := hfunctions root hroot
    exact ⟨fun n => hS.function ⟨_, hroot, .refl⟩, nofun⟩
  | tail hpath hneeds ih =>
    obtain ⟨hmentioned, hglobal⟩ := ih
    have hbefore : Reached a roots _ := ⟨root, hroot, hpath⟩
    have hconstructible := hbefore.constructible hroots
    -- A type mentions only the value that it stands for.
    have htype : ∀ {id}, S (.value (a.valueType id)) →
        (∀ n, Mentions a (.type id) n → S n) ∧ ∀ field, Key.type id = .variable field →
          S (.global field) := by
      refine fun hvalue => ⟨fun n hn => ?_, nofun⟩
      cases hn
      exact hvalue
    cases hneeds with
    | @member id t f ht hstruct hf =>
      have hvalue := hmentioned _ (.type id)
      rw [Assembly.valueType_eq (Assembly.valueType?_struct ht hstruct)] at hvalue
      refine htype (hS.parts _ hvalue _ ?_)
      rw [Name.parts, Assembly.members, ht]
      simpa using ⟨f, hf, rfl⟩
    | @element id t e name element size ht hname hparse helement =>
      have hvalue := hmentioned _ (.type id)
      obtain ⟨n, heq⟩ := Assembly.valueType_of_element hconstructible ht hname hparse helement
      rw [heq] at hvalue
      exact htype (hS.parts _ hvalue _ (by simp [Name.parts]))
    | @fieldType field f hf =>
      have hpointer := hmentioned _ (.variable field)
      refine htype (hS.parts _ hpointer _ ?_)
      simp [Name.parts, Assembly.fieldType, hf]
    | @type key p id hp hid =>
      obtain ⟨line, hline, hn⟩ := p.mem_lines_of_mem_types (a := a) hid
      have hlines : a.lines key = p.lines a := by rw [Assembly.lines, hp]
      rw [← hlines] at hline
      rcases hn with hn | hn
      · exact htype (hmentioned _ (.function hline hn))
      · exact htype (hS.parts _ (hmentioned _ (.function hline hn)) _ (by simp [Name.parts]))
    | @global key p op wire field hp hop hwire hfield =>
      obtain ⟨number, hlines⟩ := p.mem_lines a hop
      obtain ⟨line, hline, hn⟩ : ∃ line ∈ p.operationLines a number op, .global field ∈ line.names :=
        Specialized.global_mem_operationLines hwire hfield
      have hline' : line ∈ a.lines key := by
        rw [Assembly.lines, hp]
        exact hlines line hline
      have hvariable : S (.global field) := hmentioned _ (.function hline' hn)
      refine ⟨fun n hn => ?_, fun field' heq => Key.variable.inj heq ▸ hvariable⟩
      cases hn
      exact hS.parts _ hvariable _ (by simp [Name.parts])
    | @callee key callee p result wire arguments hp hop hcallee =>
      exact ⟨fun n => hS.function (hbefore.needs (.callee hp hop hcallee)), nofun⟩

/-- Every name that a run declares is covered. -/
theorem mem (hroots : ∀ k, roots k → Constructible a k)
    (hfunctions : ∀ k, roots k → ∃ key, k = .function key) (hacc : Account a h e)
    (hsize : (names h).length < UInt32.size) (hknown : ∀ k note, (k, note) ∈ h → Known a roots h k)
    (hn : n ∈ names h) (hdeclared : (n.form? a).isSome) : S n := by
  obtain ⟨k, hmem⟩ := mem_names.mp hn
  have hkey := hacc.keyed k n hmem
  have hk := hknown k _ hmem
  -- A shape or a constant was asked for by a name, which can only be this one.
  have hintroduced : Introduced a roots h k → (∀ key, k ≠ .function key) → S n := by
    rintro ⟨n', hkey', hparts', k', hreached, hmentions⟩ hleaf
    obtain rfl : n = n' := Name.key_injective hsize (hacc.grounded.parts_mem hn) hparts'
      (fun key heq => hleaf key (hkey.symm.trans heq)) (hkey.trans hkey'.symm)
    exact (hS.of_reached hroots hfunctions hreached).1 n hmentions
  have hgenuine := hacc.genuine n hn
  subst hkey
  cases n with
  | value type =>
    cases type with
    | struct id =>
      have hvalue := (hS.of_reached hroots hfunctions hk).1 _ (.type id)
      rwa [show a.valueType id = .struct id from hgenuine] at hvalue
    | _ => exact hintroduced hk fun key heq => by cases heq
  | global field => exact (hS.of_reached hroots hfunctions hk.1).2 field rfl
  | own key number => cases hdeclared
  | _ => exact hintroduced hk fun key heq => by cases heq

end Covers

end ShaderLowering
