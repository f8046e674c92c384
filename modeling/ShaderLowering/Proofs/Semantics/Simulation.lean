import ShaderLowering.Proofs.Lowering.Lines
import ShaderLowering.Proofs.Semantics.Target

/-!
# Lines do what operations do

The simulation between methods and their lowered form.  `Follows` ties the slots of a running method
to the variables of the running function, and the static fields to the variables of the module.  The
lines of each operation keep it (`operation_steps`, `returns_runs`, `call_runs`), so the lines of the
code do as the code does (`code_runs`).

Of ids nothing is used but that names that have ids have different ones.
-/

namespace ShaderLowering

open Spirv

variable {V : Type}

/-- Names that have ids have different ones. -/
def Distinct (ν : List Name) : Prop :=
  ∀ n ∈ ν, ∀ n' ∈ ν, wordOf ν n = wordOf ν n' → n = n'

theorem distinct_of_length {ν : List Name} (hsize : ν.length < UInt32.size) : Distinct ν :=
  fun _ hn _ hn' heq => ident_injective hsize hn hn' (congrArg Id.mk heq)

namespace Target

variable {x : Values V} {P : Program} {s s' s'' : State V}

/-! ## Steps -/

/-- The effect of several instructions that neither return nor call. -/
def steps (x : Values V) (P : Program) (s : State V) (is : List Instruction) : Option (State V) :=
  is.foldlM (step x P) s

@[simp] theorem steps_nil : steps x P s [] = some s := rfl

theorem steps_cons {i : Instruction} {is : List Instruction} (hstep : step x P s i = some s')
    (hrest : steps x P s' is = some s'') : steps x P s (i :: is) = some s'' := by
  rw [steps, List.foldlM_cons, hstep]
  exact hrest

theorem steps_append {is js : List Instruction} (his : steps x P s is = some s')
    (hjs : steps x P s' js = some s'') : steps x P s (is ++ js) = some s'' := by
  rw [steps, List.foldlM_append]
  rw [steps] at his
  rw [his]
  exact hjs

/-- Instructions that neither return nor call come before the others. -/
theorem Runs.of_steps {is rest : List Instruction} {r : Option V} {globals : Word → V}
    (his : steps x P s is = some s') (hrest : Runs x P rest s' r globals) :
    Runs x P (is ++ rest) s r globals := by
  induction is generalizing s with
  | nil =>
    obtain rfl := Option.some.inj his
    exact hrest
  | cons i is ih =>
    rw [steps, List.foldlM_cons] at his
    obtain ⟨s₁, hstep, his⟩ := Option.bind_eq_some_iff.mp his
    exact .step hstep (ih his)

end Target

/-! ## What belongs to a function -/

variable {ν : List Name} {a : Assembly} {p : Specialized} {x : Values V} {P : Target.Program}
  {exposed : List FieldId} {s s' : Source.State V} {t t' : Target.State V}

/-- Only ids that a function has taken are defined. -/
def Owned (ν : List Name) (p : Specialized) (defined : Word → Option V) : Prop :=
  ∀ w, (defined w).isSome → ∃ n, p.own n ∈ ν ∧ w = wordOf ν (p.own n)

namespace Owned

variable {defined : Word → Option V}

theorem update (h : Owned ν p defined) {n : Nat} (hn : p.own n ∈ ν) (v : V) :
    Owned ν p (Function.update defined (wordOf ν (p.own n)) (some v)) := by
  intro w hw
  by_cases hsame : w = wordOf ν (p.own n)
  · exact ⟨n, hn, hsame⟩
  · rw [Function.update_of_ne hsame] at hw
    exact h w hw

/-- What the function has not taken an id for is not defined. -/
theorem eq_none (h : Owned ν p defined) (hν : Distinct ν) {n : Name} (hn : n ∈ ν)
    (hother : ∀ k, n ≠ p.own k) : defined (wordOf ν n) = none := by
  cases hdefined : defined (wordOf ν n) with
  | none => rfl
  | some v =>
    obtain ⟨k, hk, heq⟩ := h (wordOf ν n) (by rw [hdefined]; rfl)
    exact absurd (hν n hn _ hk heq) (hother k)

end Owned

theorem wordOf_own_ne (hν : Distinct ν) {i j : Nat} (hi : p.own i ∈ ν) (hj : p.own j ∈ ν)
    (hne : i ≠ j) : wordOf ν (p.own i) ≠ wordOf ν (p.own j) := fun heq =>
  hne (Name.own.inj (hν _ hi _ hj heq)).2

/-- What the declarations of a program have to provide: the constants and the variables that have
names. -/
structure Provides (ν : List Name) (P : Target.Program) : Prop where
  constant : ∀ type bits, Name.constant type bits ∈ ν →
    P.constant? (wordOf ν (.constant type bits)) = some bits
  global : ∀ field, Name.global field ∈ ν → P.HasVariable (wordOf ν (.global field))

/-- The variables of a module hold what the static fields do. -/
def Agree (ν : List Name) (exposed : List FieldId) (globals : FieldId → V) (memory : Word → V) :
    Prop :=
  ∀ field ∈ exposed, memory (wordOf ν (.global field)) = globals field

/-- A running function does as a running method: its variables hold what their slots do. -/
structure Follows (ν : List Name) (p : Specialized) (exposed : List FieldId) (s : Source.State V)
    (t : Target.State V) : Prop where
  count : p.slotTypes.length ≤ s.slots.length
  slots : ∀ i < p.slotTypes.length, ∀ v, s.slots[i]? = some v →
    t.locals (wordOf ν (p.pointer i)) = some v
  values : Owned ν p t.values
  locals : Owned ν p t.locals
  globals : Agree ν exposed s.globals t.globals

/-! ## Lines -/

section Lines

variable (hν : Distinct ν) (hP : Provides ν P)

theorem Follows.define (h : Follows ν p exposed s t) {number : Nat} (hown : p.own number ∈ ν)
    (v : V) : Follows ν p exposed s (t.define (wordOf ν (p.own number)) v) :=
  ⟨h.count, h.slots, h.values.update hown v, h.locals, h.globals⟩

/-- The slot of a loaded value is read from its variable. -/
theorem Follows.loadLine (h : Follows ν p exposed s t) {slot : Il.Slot} {v : V} {number : Nat}
    (hslot : p.HasSlot slot) (hv : s.slots[slot.toNat]? = some v) :
    Target.step x P t ((p.loadLine a slot number).under ν) =
      some (t.define (wordOf ν (p.own number)) v) := by
  have hload : t.load P (wordOf ν (p.pointer slot.toNat)) = some v := by
    rw [Target.State.load, h.slots _ hslot v hv]
  simp [Target.step, Specialized.loadLine, Line.under, Operand.under, Instruction.op?, hload]

include hν in
/-- A value that is stored into a slot is held by the variable of the slot. -/
theorem Follows.storeLine (h : Follows ν p exposed s t) {slot : Il.Slot} {n : Name} {v : V}
    (hhas : p.HasSlot slot) (hvalue : t.value? x P (wordOf ν n) = some v)
    (hpointers : ∀ i < p.slotTypes.length, p.pointer i ∈ ν) (hstore : s.store slot v = some s') :
    ∃ t', Target.step x P t ((p.storeLine slot n).under ν) = some t' ∧
      Follows ν p exposed s' t' := by
  rw [Source.State.store] at hstore
  split at hstore
  case isFalse => cases hstore
  rename_i hslot
  obtain rfl := Option.some.inj hstore
  obtain ⟨old, hold⟩ : ∃ old, s.slots[slot.toNat]? = some old :=
    ⟨_, List.getElem?_eq_getElem hslot⟩
  have hpointer : p.pointer slot.toNat ∈ ν := hpointers _ hhas
  refine ⟨t.assign (wordOf ν (p.pointer slot.toNat)) v, ?_, ?_, ?_, h.values,
    h.locals.update hpointer v, h.globals⟩
  · simp [Target.step, Specialized.storeLine, Line.under, Operand.under, Instruction.op?, hvalue,
      Target.State.store, h.slots _ hhas old hold]
  · simpa using h.count
  · intro i hin u hu
    dsimp only [Target.State.assign] at hu ⊢
    by_cases hi : i = slot.toNat
    · subst hi
      rw [Function.update_self]
      rw [List.getElem?_set_self hslot] at hu
      exact hu
    · rw [List.getElem?_set_ne (Ne.symm hi)] at hu
      -- Pointers of different slots are different words.
      have hne : wordOf ν (p.pointer i) ≠ wordOf ν (p.pointer slot.toNat) :=
        wordOf_own_ne hν (hpointers i hin) hpointer (by omega)
      rw [Function.update_of_ne hne]
      exact h.slots i hin u hu

theorem Target.State.value?_define (t : Target.State V) (w : Word) (v : V) :
    (t.define w v).value? x P w = some v := by
  simp [Target.State.value?, Target.State.define]

include hν hP in
/-- A constant has its value. -/
theorem Follows.value?_constant (h : Follows ν p exposed s t) {type : ValueType} {bits : Word}
    (hknown : .constant type bits ∈ ν) :
    t.value? x P (wordOf ν (.constant type bits)) = some (x.literal bits) := by
  have hnone : t.values (wordOf ν (.constant type bits)) = none :=
    h.values.eq_none hν hknown fun _ heq => nomatch heq
  rw [Target.State.value?, hnone, hP.constant type bits hknown]
  rfl

include hν hP in
/-- What a static field holds is read from its variable. -/
theorem Follows.load_global (h : Follows ν p exposed s t) {field : FieldId}
    (hknown : .global field ∈ ν) (hexposed : field ∈ exposed) :
    t.load P (wordOf ν (.global field)) = some (s.globals field) := by
  have hnone : t.locals (wordOf ν (.global field)) = none :=
    h.locals.eq_none hν hknown fun _ heq => nomatch heq
  rw [Target.State.load, hnone]
  dsimp only
  rw [if_pos (hP.global field hknown), h.globals field hexposed]

include hν hP in
/-- What is stored into a static field is held by its variable. -/
theorem Follows.store_global (h : Follows ν p exposed s t) {field : FieldId} (v : V)
    (hknown : ∀ field ∈ exposed, .global field ∈ ν) (hexposed : field ∈ exposed) :
    ∃ t', t.store P (wordOf ν (.global field)) v = some t' ∧
      Follows ν p exposed { s with globals := Function.update s.globals field v } t' := by
  have hfield := hknown field hexposed
  have hnone : t.locals (wordOf ν (.global field)) = none :=
    h.locals.eq_none hν hfield fun _ heq => nomatch heq
  refine ⟨{ t with globals := Function.update t.globals (wordOf ν (.global field)) v }, ?_,
    h.count, h.slots, h.values, h.locals, fun field' hexposed' => ?_⟩
  · rw [Target.State.store, hnone]
    dsimp only
    rw [if_pos (hP.global field hfield)]
  · dsimp only
    by_cases hsame : field' = field
    · subst hsame
      rw [Function.update_self, Function.update_self]
    · have hne : wordOf ν (.global field') ≠ wordOf ν (.global field) := fun heq =>
        hsame (Name.global.inj (hν _ (hknown field' hexposed') _ hfield heq))
      rw [Function.update_of_ne hne, Function.update_of_ne hsame, h.globals field' hexposed']

end Lines

/-! ## Operations -/

/-- What is known of the names that a function mentions. -/
structure Settled (ν : List Name) (p : Specialized) (exposed : List FieldId) (P : Target.Program) :
    Prop where
  distinct : Distinct ν
  provides : Provides ν P
  pointers : ∀ i < p.slotTypes.length, p.pointer i ∈ ν
  exposed : ∀ field ∈ exposed, Name.global field ∈ ν

/-- The lines of an operation that stops the method return what it does. -/
theorem returns_runs (h : Follows ν p exposed s t) {op : Il.Operation} {number : Nat}
    {r : Option V} (hrefers : p.Refers a op) (hreturns : Source.returns? s op = some r)
    (rest : List Instruction)
    (hknown : ∀ line ∈ p.operationLines a number op, ∀ n ∈ line.names, n ∈ ν) :
    Target.Runs x P ((p.operationLines a number op).map (Line.under ν) ++ rest) t r t.globals := by
  cases op with
  | ret =>
    obtain rfl := Option.some.inj hreturns
    exact .stop rfl
  | returnValue value =>
    cases value with
    | none => cases hreturns
    | some slot =>
      obtain ⟨v, hv, rfl⟩ := Option.map_eq_some_iff.mp hreturns
      obtain ⟨_, heq, hslot⟩ := hrefers
      obtain rfl := Option.some.inj heq
      refine .step (h.loadLine hslot hv) (.stop ?_)
      simp [Target.returns?, Line.under, Operand.under, Instruction.op?,
        Target.State.value?_define]
  | _ => cases hreturns

/-- The arguments of a call are loaded one after another. -/
theorem arguments_steps (hν : Distinct ν) (h : Follows ν p exposed s t) {slots : List Il.Slot}
    (hslots : ∀ slot ∈ slots, p.HasSlot slot) (number : Nat) {arguments : List V}
    (harguments : slots.mapM (fun slot => s.slots[slot.toNat]?) = some arguments)
    (hknown : ∀ i < slots.length, p.own (number + i) ∈ ν) :
    ∃ t', Target.steps x P t ((p.argumentLines a slots number).map (Line.under ν)) = some t' ∧
      Follows ν p exposed s t' ∧ t'.globals = t.globals ∧
      ((List.range' number slots.length).map fun n => wordOf ν (p.own n)).mapM (t'.value? x P) =
        some arguments ∧
      ∀ n, p.own n ∈ ν → n < number → t'.values (wordOf ν (p.own n)) =
        t.values (wordOf ν (p.own n)) := by
  induction slots generalizing number arguments t with
  | nil =>
    obtain rfl := Option.some.inj harguments
    exact ⟨t, rfl, h, rfl, rfl, fun _ _ _ => rfl⟩
  | cons slot slots ih =>
    rw [List.mapM_cons] at harguments
    obtain ⟨v, hv, harguments⟩ := Option.bind_eq_some_iff.mp harguments
    obtain ⟨vs, hvs, harguments⟩ := Option.bind_eq_some_iff.mp harguments
    obtain rfl := Option.some.inj harguments
    have hown : p.own number ∈ ν := hknown 0 (by simp)
    obtain ⟨t', hsteps, hfollows, hglobals, hvalues, hkept⟩ := ih (h.define hown v)
      (fun slot hslot => hslots slot (List.mem_cons_of_mem _ hslot)) (number + 1) hvs fun i hi => by
        have hmem := hknown (i + 1) (by simpa using hi)
        rwa [Nat.add_assoc, Nat.add_comm 1 i]
    have hslot := hslots slot List.mem_cons_self
    refine ⟨t', Target.steps_cons (h.loadLine hslot hv) hsteps, hfollows, hglobals, ?_, ?_⟩
    -- Later loads define other words, so this one keeps its value.
    · have hfirst : t'.value? x P (wordOf ν (p.own number)) = some v := by
        rw [Target.State.value?, hkept number hown (Nat.lt_succ_self number)]
        simp [Target.State.define]
      rw [List.length_cons, List.range'_succ, List.map_cons, List.mapM_cons, hfirst, hvalues]
      rfl
    · intro n hn hlt
      rw [hkept n hn (Nat.lt_succ_of_lt hlt), Target.State.define]
      exact Function.update_of_ne (wordOf_own_ne hν hn hown (Nat.ne_of_lt hlt)) _ _

section Operations

variable (hset : Settled ν p exposed P)

include hset

/-- A literal is put into a slot. -/
theorem constant_steps (h : Follows ν p exposed s t) {destination : Il.Slot} {bits : Word}
    (hslot : p.HasSlot destination) (hstore : s.store destination (x.literal bits) = some s')
    (hknown : ∀ n ∈ (p.storeLine destination
      (.constant (p.slotValue a destination) bits)).names, n ∈ ν) :
    ∃ t', Target.steps x P t ([p.storeLine destination
        (.constant (p.slotValue a destination) bits)].map (Line.under ν)) = some t' ∧
      Follows ν p exposed s' t' := by
  have hconstant : .constant (p.slotValue a destination) bits ∈ ν :=
    hknown _ (by simp [Specialized.storeLine, Line.names, Operand.name?])
  obtain ⟨t', hstored, hfollows⟩ := h.storeLine hset.distinct hslot
    (h.value?_constant hset.distinct hset.provides hconstant) hset.pointers hstore
  exact ⟨t', Target.steps_cons hstored rfl, hfollows⟩

/-- The lines of an operation that neither stops nor calls do as it does. -/
theorem operation_steps (h : Follows ν p exposed s t) {op : Il.Operation} {number : Nat}
    (hrefers : p.Refers a op) (hstep : Source.step x s op = some s')
    (hknown : ∀ line ∈ p.operationLines a number op, ∀ n ∈ line.names, n ∈ ν)
    (hfields : ∀ wire field, op.field? = some wire → EntityId.ofWire? wire = some field →
      field ∈ exposed) :
    ∃ t', Target.steps x P t ((p.operationLines a number op).map (Line.under ν)) = some t' ∧
      Follows ν p exposed s' t' := by
  cases op with
  | call _ _ _ => cases hstep
  | ret => cases hstep
  | returnValue _ => cases hstep
  | load destination source =>
    obtain ⟨v, hv, hstore⟩ := Option.bind_eq_some_iff.mp hstep
    have hown : p.own number ∈ ν := hknown (p.loadLine a source number)
      (by simp [Specialized.operationLines]) _
      (by simp [Specialized.loadLine, Line.names, Operand.name?])
    obtain ⟨t', hstored, hfollows⟩ := (h.define hown v).storeLine hset.distinct hrefers.1
      (t.value?_define (x := x) (P := P) _ v) hset.pointers hstore
    exact ⟨t', Target.steps_cons (h.loadLine hrefers.2 hv) (Target.steps_cons hstored rfl), hfollows⟩
  | loadField destination wire =>
    obtain ⟨field, hfield, hstore⟩ := Option.bind_eq_some_iff.mp hstep
    have hexposed := hfields wire field rfl hfield
    have hname : p.globalName wire = .global field := by rw [Specialized.globalName, hfield]
    have hown : p.own number ∈ ν := hknown ⟨.load, [.name (.value (Specialized.globalType a wire)),
      .name (p.own number), .name (p.globalName wire)]⟩ (by simp [Specialized.operationLines]) _
      (by simp [Line.names, Operand.name?])
    have hload := h.load_global hset.distinct hset.provides (hset.exposed field hexposed) hexposed
    obtain ⟨t', hstored, hfollows⟩ := (h.define hown (s.globals field)).storeLine hset.distinct
      hrefers.2
      (t.value?_define (x := x) (P := P) _ _) hset.pointers hstore
    refine ⟨t', Target.steps_cons ?_ (Target.steps_cons hstored rfl), hfollows⟩
    simp [Target.step, Line.under, Operand.under, Instruction.op?, hname, hload]
  | storeField wire source =>
    obtain ⟨field, hfield, hstep⟩ := Option.bind_eq_some_iff.mp hstep
    obtain ⟨v, hv, hstep⟩ := Option.bind_eq_some_iff.mp hstep
    obtain rfl := Option.some.inj hstep
    have hexposed := hfields wire field rfl hfield
    have hname : p.globalName wire = .global field := by rw [Specialized.globalName, hfield]
    have hown : p.own number ∈ ν := hknown (p.loadLine a source number)
      (by simp [Specialized.operationLines]) _
      (by simp [Specialized.loadLine, Line.names, Operand.name?])
    obtain ⟨t', hstored, hfollows⟩ := (h.define hown v).store_global hset.distinct hset.provides v
      hset.exposed hexposed
    refine ⟨t', Target.steps_cons (h.loadLine hrefers.2 hv) (Target.steps_cons ?_ rfl), hfollows⟩
    simp [Target.step, Line.under, Operand.under, Instruction.op?, hname, hstored,
      Target.State.value?_define]
  | loadUInt32 destination bits =>
    exact constant_steps hset h hrefers hstep (hknown _ (by simp [Specialized.operationLines]))
  | loadFloat32 destination bits =>
    exact constant_steps hset h hrefers hstep (hknown _ (by simp [Specialized.operationLines]))

/-- The lines of a call do as it does, if the function that they call does as the method. -/
theorem call_runs (h : Follows ν p exposed s t) {result : Option Il.Slot} {callee : FunctionKey}
    {slots : List Il.Slot} {number : Nat} {arguments : List V} {block : List Instruction}
    {r : Option V} {globals : FieldId → V} {memory : Word → V}
    (hslots : ∀ slot ∈ slots, p.HasSlot slot) (hslot : ∀ slot ∈ result, p.HasSlot slot)
    (harguments : slots.mapM (fun slot => s.slots[slot.toNat]?) = some arguments)
    (hblock : P.function? (wordOf ν (.own callee 0)) = some block)
    (hcallee : Target.Runs x P block (.start arguments t.globals) r memory)
    (hagree : Agree ν exposed globals memory)
    (hresult : Source.State.bind x { s with globals } result r = some s')
    (hknown : ∀ line ∈ p.callLines a number result callee slots, ∀ n ∈ line.names, n ∈ ν) :
    ∃ t', Follows ν p exposed s' t' ∧ ∀ rest r' memory', Target.Runs x P rest t' r' memory' →
      Target.Runs x P ((p.callLines a number result callee slots).map (Line.under ν) ++ rest) t r'
        memory' := by
  have hline : p.callLine a callee slots.length number ∈ p.callLines a number result callee slots := by
    simp [Specialized.callLines]
  have hown : p.own (number + slots.length) ∈ ν :=
    hknown _ hline _ (by simp [Specialized.callLine, Line.names, Operand.name?])
  have howns : ∀ i < slots.length, p.own (number + i) ∈ ν := fun i hi => by
    refine hknown _ hline _ (List.mem_filterMap.mpr ⟨.name (p.own (number + i)), ?_, rfl⟩)
    have hargument : .name (p.own (number + i)) ∈
        (List.range' number slots.length).map fun n => Operand.name (p.own n) :=
      List.mem_map.mpr ⟨number + i, by simp [hi], rfl⟩
    simp only [Specialized.callLine, List.mem_cons]
    exact .inr (.inr (.inr hargument))
  obtain ⟨t₁, hsteps, hfollows₁, hglobals, hvalues, -⟩ :=
    arguments_steps (a := a) (P := P) (x := x) hset.distinct h hslots number harguments howns
  rw [← hglobals] at hcallee
  have hcall : Target.call? ((p.callLine a callee slots.length number).under ν) =
      some (wordOf ν (p.own (number + slots.length)), wordOf ν (.own callee 0),
        (List.range' number slots.length).map fun n => wordOf ν (p.own n)) := by
    simp [Target.call?, Specialized.callLine, Line.under, Operand.under, Instruction.op?,
      Function.comp_def]
  have hreturned : Follows ν p exposed { s with globals }
      ({ t₁ with globals := memory }.define (wordOf ν (p.own (number + slots.length)))
        (r.getD x.undefined)) := by
    -- The callee has its own slots and values; of the caller it changes the globals only.
    have hreplaced : Follows ν p exposed { s with globals } { t₁ with globals := memory } :=
      ⟨hfollows₁.count, hfollows₁.slots, hfollows₁.values, hfollows₁.locals, hagree⟩
    exact hreplaced.define hown _
  cases result with
  | none =>
    obtain rfl := Option.some.inj hresult
    refine ⟨_, hreturned, fun rest r' memory' hrest => ?_⟩
    rw [Specialized.callLines, List.map_append, List.append_assoc]
    exact .of_steps hsteps (.call hcall hblock hvalues hcallee hrest)
  | some slot =>
    obtain ⟨t₂, hstored, hfollows₂⟩ := hreturned.storeLine (x := x) (P := P) hset.distinct
      (hslot slot rfl) (Target.State.value?_define _ _ _) hset.pointers hresult
    refine ⟨t₂, hfollows₂, fun rest r' memory' hrest => ?_⟩
    rw [Specialized.callLines, List.map_append, List.append_assoc]
    exact .of_steps hsteps (.call hcall hblock hvalues hcallee (.step hstored hrest))

end Operations

/-! ## Code -/

/-- An operation of a method that is lowered stops it, takes a step, or calls. -/
theorem progress (x : Values V) {op : Il.Operation} (hrefers : p.Refers a op)
    (hcount : p.slotTypes.length ≤ s.slots.length) :
    (∃ r, Source.returns? s op = some r) ∨ (∃ s', Source.step x s op = some s') ∨
      ∃ result wire slots, op = .call result wire slots := by
  have hget : ∀ {slot : Il.Slot}, p.HasSlot slot → ∃ v, s.slots[slot.toNat]? = some v :=
    fun {slot} hslot => ⟨_, List.getElem?_eq_getElem (Nat.lt_of_lt_of_le hslot hcount)⟩
  have hput : ∀ {slot : Il.Slot} (v : V), p.HasSlot slot → ∃ s', s.store slot v = some s' :=
    fun {slot} v hslot => ⟨_, if_pos (Nat.lt_of_lt_of_le hslot hcount)⟩
  cases op with
  | call result wire slots => exact .inr (.inr ⟨result, wire, slots, rfl⟩)
  | ret => exact .inl ⟨none, rfl⟩
  | returnValue value =>
    obtain ⟨slot, rfl, hslot⟩ := hrefers
    obtain ⟨v, hv⟩ := hget hslot
    exact .inl ⟨some v, by simp [Source.returns?, hv]⟩
  | load destination source =>
    obtain ⟨v, hv⟩ := hget hrefers.2
    obtain ⟨s', hs'⟩ := hput v hrefers.1
    exact .inr (.inl ⟨s', by simp [Source.step, hv, hs']⟩)
  | loadField destination wire =>
    obtain ⟨field, hfield⟩ := Option.isSome_iff_exists.mp hrefers.1
    obtain ⟨s', hs'⟩ := hput (s.globals field) hrefers.2
    exact .inr (.inl ⟨s', by simp [Source.step, hfield, hs']⟩)
  | storeField wire source =>
    obtain ⟨field, hfield⟩ := Option.isSome_iff_exists.mp hrefers.1
    obtain ⟨v, hv⟩ := hget hrefers.2
    exact .inr (.inl ⟨_, by simp only [Source.step, hfield, hv]; rfl⟩)
  | loadUInt32 destination bits => exact .inr (.inl (hput (x.literal bits) hrefers))
  | loadFloat32 destination bits => exact .inr (.inl (hput (x.literal bits) hrefers))

theorem Source.State.globals_store {slot : Il.Slot} {v : V} (hstore : s.store slot v = some s') :
    s'.globals = s.globals := by
  unfold Source.State.store at hstore
  split at hstore
  · obtain rfl := Option.some.inj hstore
    rfl
  · cases hstore

theorem Source.State.globals_bind {result : Option Il.Slot} {r : Option V}
    (hbind : s.bind x result r = some s') : s'.globals = s.globals := by
  cases result with
  | none =>
    obtain rfl := Option.some.inj hbind
    rfl
  | some slot => exact globals_store hbind

/-- A step changes no other static fields than those that the operation names. -/
theorem Source.globals_step {op : Il.Operation} (hstep : Source.step x s op = some s')
    (hfields : ∀ wire field, op.field? = some wire → EntityId.ofWire? wire = some field →
      field ∈ exposed) {field : FieldId} (hfield : field ∉ exposed) :
    s'.globals field = s.globals field := by
  cases op with
  | call _ _ _ => cases hstep
  | ret => cases hstep
  | returnValue _ => cases hstep
  | load destination source =>
    obtain ⟨v, -, hstore⟩ := Option.bind_eq_some_iff.mp hstep
    rw [State.globals_store hstore]
  | loadField destination wire =>
    obtain ⟨field', -, hstore⟩ := Option.bind_eq_some_iff.mp hstep
    rw [State.globals_store hstore]
  | storeField wire source =>
    obtain ⟨field', hwire, hstep⟩ := Option.bind_eq_some_iff.mp hstep
    obtain ⟨v, -, hstep⟩ := Option.bind_eq_some_iff.mp hstep
    obtain rfl := Option.some.inj hstep
    have hne : field ≠ field' := fun heq => hfield (heq ▸ hfields wire field' rfl hwire)
    exact Function.update_of_ne hne _ _
  | loadUInt32 destination bits => rw [State.globals_store hstep]
  | loadFloat32 destination bits => rw [State.globals_store hstep]

/-- A function does as a method does: on the same arguments and on static fields that agree, both come
to the same end. -/
def Alike (a : Assembly) (x : Values V) (P : Target.Program) (ν : List Name)
    (exposed : List FieldId) (m : MethodDef) (key : FunctionKey) : Prop :=
  ∀ (arguments : List V) (globals : FieldId → V) (memory : Word → V),
    arguments.length = m.effectiveParameters.length → Agree ν exposed globals memory →
    ∃ r globals' memory', Source.RunsMethod a x m arguments globals r globals' ∧
      Target.RunsFunction x P (wordOf ν (.own key 0)) arguments memory r memory' ∧
      Agree ν exposed globals' memory' ∧ ∀ field, field ∉ exposed → globals' field = globals field

theorem exists_mapM {α β : Type} {F : α → Option β} {xs : List α}
    (h : ∀ x ∈ xs, ∃ v, F x = some v) : ∃ vs, xs.mapM F = some vs := by
  induction xs with
  | nil => exact ⟨[], rfl⟩
  | cons x xs ih =>
    obtain ⟨v, hv⟩ := h x List.mem_cons_self
    obtain ⟨vs, hvs⟩ := ih fun x' hx' => h x' (List.mem_cons_of_mem x hx')
    exact ⟨v :: vs, by rw [List.mapM_cons, hv, hvs]; rfl⟩

/-- What is known of an instruction of a method whose function is lowered. -/
structure Sensible (a : Assembly) (x : Values V) (P : Target.Program) (ν : List Name)
    (exposed : List FieldId) (p : Specialized) (op : Il.Operation) : Prop where
  refers : p.Refers a op
  fields : ∀ wire field, op.field? = some wire → EntityId.ofWire? wire = some field →
    field ∈ exposed
  calls : ∀ result wire slots callee target, op = .call result wire slots →
    p.calleeKey? a wire slots = some callee → Specialized.target? a wire = some target →
    Alike a x P ν exposed target callee

/-- The lines of the code do as the code does, up to the instruction that stops it. -/
theorem code_runs (hset : Settled ν p exposed P) (h : Follows ν p exposed s t)
    (code : List Il.Instruction) (number : Nat)
    (hsensible : ∀ i ∈ code, ∃ op, i.decode = .ok op ∧ Sensible a x P ν exposed p op)
    (hreturns : ∃ i ∈ code, ∃ op, i.decode = .ok op ∧ op.Stops)
    (hknown : ∀ line ∈ p.codeLines a number code, ∀ n ∈ line.names, n ∈ ν)
    (rest : List Instruction) :
    ∃ r globals memory, Source.Runs a x code s r globals ∧
      Target.Runs x P ((p.codeLines a number code).map (Line.under ν) ++ rest) t r memory ∧
      Agree ν exposed globals memory ∧ ∀ field, field ∉ exposed → globals field = s.globals field := by
  -- By induction on the code: its first operation stops the method, takes a step, or calls.
  induction code generalizing s t number with
  | nil => obtain ⟨i, hi, -⟩ := hreturns; cases hi
  | cons i code ih =>
    obtain ⟨op, hop, hop'⟩ := hsensible i List.mem_cons_self
    have hlines : p.codeLines a number (i :: code) =
        p.operationLines a number op ++ p.codeLines a (number + op.taken) code := by
      rw [Specialized.codeLines, hop]
    rw [hlines] at hknown ⊢
    have hfirst : ∀ line ∈ p.operationLines a number op, ∀ n ∈ line.names, n ∈ ν :=
      fun line hline => hknown line (List.mem_append_left _ hline)
    -- If it goes on, the instruction that stops the method is among the others.
    have hothers : ¬op.Stops → ∃ i ∈ code, ∃ op, i.decode = .ok op ∧ op.Stops := by
      intro hgoes
      obtain ⟨i', hi', op', hop'', hstops⟩ := hreturns
      rcases List.mem_cons.mp hi' with rfl | hi'
      · obtain rfl := Except.ok.inj (hop.symm.trans hop'')
        exact absurd hstops hgoes
      · exact ⟨i', hi', op', hop'', hstops⟩
    have hgo : ∀ {s' : Source.State V} {t' : Target.State V}, Follows ν p exposed s' t' →
        ¬op.Stops → ∃ r globals memory, Source.Runs a x code s' r globals ∧
          Target.Runs x P ((p.codeLines a (number + op.taken) code).map (Line.under ν) ++ rest) t' r
            memory ∧
          Agree ν exposed globals memory ∧
          ∀ field, field ∉ exposed → globals field = s'.globals field := fun hfollows hgoes =>
      ih hfollows _ (fun i' hi' => hsensible i' (List.mem_cons_of_mem i hi')) (hothers hgoes)
        (fun line hline => hknown line (List.mem_append_right _ hline))
    rw [List.map_append, List.append_assoc]
    rcases progress x hop'.refers h.count with ⟨r, hstop⟩ | ⟨s', hstep⟩ | ⟨result, wire, slots, rfl⟩
    · exact ⟨r, s.globals, t.globals, .stop hop hstop, returns_runs h hop'.refers hstop _ hfirst, h.globals,
        fun _ _ => rfl⟩
    · obtain ⟨t', hsteps, hfollows⟩ := operation_steps hset h hop'.refers hstep hfirst hop'.fields
      have hgoes : ¬op.Stops := by cases op <;> first | exact id | cases hstep
      obtain ⟨r, globals, memory, hsource, htarget, hagree, hframe⟩ := hgo hfollows hgoes
      refine ⟨r, globals, memory, .step hop hstep hsource, .of_steps hsteps htarget, hagree, ?_⟩
      intro field hfield
      rw [hframe field hfield, Source.globals_step hstep hop'.fields hfield]
    · obtain ⟨hsome, hslots, hslot⟩ := hop'.refers
      obtain ⟨callee, hkey⟩ := Option.isSome_iff_exists.mp hsome
      obtain ⟨target, htarget, -, hlength, -⟩ := Specialized.target?_of_calleeKey? hkey
      obtain ⟨arguments, harguments⟩ := exists_mapM (F := fun slot : Il.Slot => s.slots[slot.toNat]?)
        fun slot hslot => ⟨_, List.getElem?_eq_getElem (Nat.lt_of_lt_of_le (hslots slot hslot) h.count)⟩
      obtain ⟨r₁, globals₁, memory₁, hmethod, ⟨block, hblock, hfunction⟩, hagree₁, hframe₁⟩ :=
        hop'.calls result wire slots callee target rfl hkey htarget arguments s.globals t.globals
          ((mapM_eq_some.mp harguments).length_eq.symm.trans hlength) h.globals
      obtain ⟨s', hbind⟩ : ∃ s', Source.State.bind x { s with globals := globals₁ } result r₁ =
          some s' := by
        cases result with
        | none => exact ⟨_, rfl⟩
        | some slot => exact ⟨_, if_pos (Nat.lt_of_lt_of_le (hslot slot rfl) h.count)⟩
      have hcall : p.operationLines a number (.call result wire slots) =
          p.callLines a number result callee slots := by
        rw [Specialized.operationLines, hkey]
      rw [hcall] at hfirst ⊢
      obtain ⟨t', hfollows, hruns⟩ :=
        call_runs hset h hslots hslot harguments hblock hfunction hagree₁ hbind hfirst
      obtain ⟨r, globals, memory, hsource, htarget', hagree, hframe⟩ := hgo hfollows fun hno => hno
      refine ⟨r, globals, memory, .call hop htarget harguments hmethod hbind hsource,
        hruns _ r memory htarget', hagree, fun field hfield => ?_⟩
      rw [hframe field hfield, Source.State.globals_bind hbind]
      exact hframe₁ field hfield

end ShaderLowering
