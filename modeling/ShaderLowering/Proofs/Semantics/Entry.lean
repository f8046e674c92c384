import ShaderLowering.Proofs.Layout.CallOrder
import ShaderLowering.Proofs.Lowering.Keys
import ShaderLowering.Proofs.Lowering.Lines
import ShaderLowering.Proofs.Semantics.Simulation

/-!
# Functions begin as methods do

The lines before the operations take the arguments, declare one variable per slot and store the
arguments into the first ones.  After them the running function `Follows` the method before its first
instruction (`entry_steps`), whence the whole function does as the whole method
(`Specialized.alike`).
-/

namespace ShaderLowering

open Spirv

variable {V : Type} {ν : List Name} {a : Assembly} {p : Specialized} {x : Values V}
  {P : Target.Program} {exposed : List FieldId} {t t' : Target.State V}

/-- The arguments are taken, one by one. -/
theorem parameters_steps (hν : Distinct ν) (types : List TypeId) (position : Nat)
    (howned : Owned ν p t.values) (hlength : t.arguments.length = types.length)
    (hknown : ∀ i < types.length, p.incoming (position + i) ∈ ν) :
    ∃ t', Target.steps x P t ((p.parameterLines a types position).map (Line.under ν)) = some t' ∧
      Owned ν p t'.values ∧ t'.locals = t.locals ∧ t'.globals = t.globals ∧
      (∀ i v, t.arguments[i]? = some v → t'.values (wordOf ν (p.incoming (position + i))) = some v) ∧
      ∀ i, p.own i ∈ ν → i < 1 + position → t'.values (wordOf ν (p.own i)) =
        t.values (wordOf ν (p.own i)) := by
  induction types generalizing position t with
  | nil =>
    refine ⟨t, rfl, howned, rfl, rfl, fun i v hv => ?_, fun _ _ _ => rfl⟩
    rw [List.length_eq_zero_iff.mp hlength] at hv
    cases hv
  | cons type types ih =>
    obtain ⟨v, rest, harguments⟩ := List.exists_cons_of_length_eq_add_one hlength
    have hown : p.incoming position ∈ ν := hknown 0 (by simp)
    have hstep : Target.step x P t ((p.parameterLine a type position).under ν) =
        some { t.define (wordOf ν (p.incoming position)) v with arguments := rest } := by
      simp [Target.step, Specialized.parameterLine, Line.under, Operand.under, Instruction.op?,
        harguments]
    obtain ⟨t', hsteps, howned', hlocals, hglobals, hvalues, hkept⟩ :=
      @ih { t.define (wordOf ν (p.incoming position)) v with arguments := rest } (position + 1)
        (howned.update hown v) (by simpa [harguments] using hlength) fun i hi => by
          have hmem := hknown (i + 1) (by simpa using hi)
          rwa [Nat.add_assoc, Nat.add_comm 1 i]
    refine ⟨t', Target.steps_cons hstep hsteps, howned', hlocals, hglobals, fun i u hu => ?_,
      fun i hi hlt => ?_⟩
    · cases i with
      | zero =>
        rw [harguments] at hu
        obtain rfl := Option.some.inj hu
        refine (hkept _ hown (by omega)).trans ?_
        simp [Target.State.define, Specialized.incoming]
      | succ i =>
        rw [harguments] at hu
        rw [Nat.add_comm i 1, ← Nat.add_assoc]
        exact hvalues i u hu
    · refine (hkept i hi (by omega)).trans ?_
      exact Function.update_of_ne (wordOf_own_ne hν hi hown (Nat.ne_of_lt hlt)) _ _

/-- The variables of the slots start undefined. -/
theorem slots_steps (hν : Distinct ν) (types : List TypeId) (position : Nat)
    (howned : Owned ν p t.locals) (hknown : ∀ i < types.length, p.pointer (position + i) ∈ ν) :
    ∃ t', Target.steps x P t ((p.slotLines a types position).map (Line.under ν)) = some t' ∧
      Owned ν p t'.locals ∧ t'.values = t.values ∧ t'.globals = t.globals ∧
      (∀ i < types.length, t'.locals (wordOf ν (p.pointer (position + i))) = some x.undefined) ∧
      ∀ i < position, p.pointer i ∈ ν → t'.locals (wordOf ν (p.pointer i)) =
        t.locals (wordOf ν (p.pointer i)) := by
  induction types generalizing position t with
  | nil => exact ⟨t, rfl, howned, rfl, rfl, nofun, fun _ _ _ => rfl⟩
  | cons type types ih =>
    have hpointer : p.pointer position ∈ ν := hknown 0 (by simp)
    have hstep : Target.step x P t ((p.slotLine a type position).under ν) =
        some (t.assign (wordOf ν (p.pointer position)) x.undefined) := by
      simp [Target.step, Specialized.slotLine, Line.under, Operand.under, Instruction.op?]
    obtain ⟨t', hsteps, howned', hvalues, hglobals, hlocals, hkept⟩ :=
      @ih (t.assign (wordOf ν (p.pointer position)) x.undefined) (position + 1)
        (howned.update hpointer x.undefined) fun i hi => by
        have hmem := hknown (i + 1) (by simpa using hi)
        rwa [Nat.add_assoc, Nat.add_comm 1 i]
    refine ⟨t', Target.steps_cons hstep hsteps, howned', hvalues, hglobals, fun i hi => ?_,
      fun i hlt hi => ?_⟩
    · cases i with
      | zero =>
        refine (hkept position (Nat.lt_succ_self position) hpointer).trans ?_
        exact Function.update_self _ _ _
      | succ i =>
        rw [Nat.add_comm i 1, ← Nat.add_assoc]
        exact hlocals i (by simpa using hi)
    · refine (hkept i (Nat.lt_succ_of_lt hlt) hi).trans ?_
      exact Function.update_of_ne (wordOf_own_ne hν hi hpointer (by omega)) _ _

/-- The arguments are stored into the first slots. -/
theorem arrivals_steps (hν : Distinct ν) {arguments : List V} (n : Nat)
    (hvalues : ∀ i v, arguments[i]? = some v → t.values (wordOf ν (p.incoming i)) = some v)
    (hcount : n ≤ arguments.length) (howned : Owned ν p t.locals)
    (hlocals : ∀ i < n, (t.locals (wordOf ν (p.pointer i))).isSome)
    (hknown : ∀ i < n, p.pointer i ∈ ν) :
    ∃ t', Target.steps x P t (((List.range n).map p.arrivalLine).map (Line.under ν)) = some t' ∧
      Owned ν p t'.locals ∧ t'.values = t.values ∧ t'.globals = t.globals ∧
      ∀ i, p.pointer i ∈ ν → t'.locals (wordOf ν (p.pointer i)) =
        if i < n then arguments[i]? else t.locals (wordOf ν (p.pointer i)) := by
  induction n with
  | zero => exact ⟨t, rfl, howned, rfl, rfl, fun i _ => by simp⟩
  | succ n ih =>
    obtain ⟨t₁, hsteps, howned₁, hvalues₁, hglobals₁, hstored⟩ := ih (Nat.le_of_succ_le hcount)
      (fun i hi => hlocals i (Nat.lt_succ_of_lt hi)) fun i hi => hknown i (Nat.lt_succ_of_lt hi)
    have hpointer := hknown n (Nat.lt_succ_self n)
    obtain ⟨v, hv⟩ : ∃ v, arguments[n]? = some v := ⟨_, List.getElem?_eq_getElem hcount⟩
    -- A variable has to be there to be stored into.
    obtain ⟨old, hold⟩ : ∃ old, t₁.locals (wordOf ν (p.pointer n)) = some old := by
      rw [hstored n hpointer, if_neg (Nat.lt_irrefl n)]
      exact Option.isSome_iff_exists.mp (hlocals n (Nat.lt_succ_self n))
    have hvalue : t₁.value? x P (wordOf ν (p.incoming n)) = some v := by
      rw [Target.State.value?, hvalues₁, hvalues n v hv]
    have hstep : Target.step x P t₁ ((p.arrivalLine n).under ν) =
        some (t₁.assign (wordOf ν (p.pointer n)) v) := by
      simp [Target.step, Specialized.arrivalLine, Line.under, Operand.under, Instruction.op?, hvalue,
        Target.State.store, hold]
    refine ⟨t₁.assign (wordOf ν (p.pointer n)) v, ?_, howned₁.update hpointer v, hvalues₁, hglobals₁,
      fun i hi => ?_⟩
    · rw [List.range_succ, List.map_append, List.map_append]
      exact Target.steps_append hsteps (Target.steps_cons hstep rfl)
    · by_cases hin : i = n
      · subst hin
        rw [if_pos (Nat.lt_succ_self i), hv]
        exact Function.update_self _ _ _
      · have hsame : i < n + 1 ↔ i < n := by omega
        simp only [hsame]
        rw [← hstored i hi]
        exact Function.update_of_ne (wordOf_own_ne hν hi hpointer (by omega)) _ _

/-! ## Whole functions -/

/-- The lines of a function after the one that begins it, up to the operations. -/
def Specialized.entryLines (a : Assembly) (p : Specialized) : List Line :=
  p.parameterLines a p.key.parameters 0 ++ [p.labelLine] ++ p.slotLines a p.slotTypes 0
    ++ p.arrivalLines

theorem Specialized.lines_eq (a : Assembly) (p : Specialized) :
    p.lines a = p.functionLine a :: (p.entryLines a ++
      (p.codeLines a p.reserved p.method.code.instructions ++ [⟨.functionEnd, []⟩])) := by
  simp [lines, headLines, entryLines]

/-- Before its first operation a function follows the method before its first instruction. -/
theorem entry_steps (hset : Settled ν p exposed P) {arguments : List V} {globals : FieldId → V}
    {memory : Word → V} (hincoming : ∀ i < p.key.parameters.length, p.incoming i ∈ ν)
    (hlength : p.key.parameters.length = p.method.effectiveParameters.length)
    (harguments : arguments.length = p.method.effectiveParameters.length)
    (hagree : Agree ν exposed globals memory) :
    ∃ t, Target.steps x P (.start arguments memory) ((p.entryLines a).map (Line.under ν)) = some t ∧
      Follows ν p exposed ⟨Source.entrySlots x p.method arguments, globals⟩ t := by
  have hsame : arguments.length = p.key.parameters.length := harguments.trans hlength.symm
  have hslots : p.slotTypes.length ≤ p.method.slotCount := by
    rw [Specialized.slotTypes, List.length_map, MethodDef.length_backedTypes]
    exact p.method.backedCount_le
  obtain ⟨t₁, hsteps₁, howned₁, hlocals₁, hglobals₁, hvalues₁, -⟩ :=
    parameters_steps (a := a) (x := x) (P := P) hset.distinct p.key.parameters 0
      (t := .start arguments memory) (fun w hw => by cases hw) hsame (by simpa using hincoming)
  have hlabel : Target.step x P t₁ (p.labelLine.under ν) = some t₁ := by
    simp [Target.step, Specialized.labelLine, Line.under, Instruction.op?]
  obtain ⟨t₂, hsteps₂, howned₂, hvalues₂, hglobals₂, hlocals₂, -⟩ :=
    slots_steps (a := a) (x := x) (P := P) (t := t₁) hset.distinct p.slotTypes 0
      (by rw [hlocals₁]; exact fun w hw => by cases hw) (by simpa using hset.pointers)
  simp only [Nat.zero_add] at hvalues₁ hlocals₂
  -- There may be fewer variables than arguments; the slots beyond them are never named.
  have harrived : min p.slotTypes.length p.key.parameters.length =
      min p.slotTypes.length arguments.length := by rw [hsame]
  obtain ⟨t₃, hsteps₃, howned₃, hvalues₃, hglobals₃, hstored⟩ :=
    arrivals_steps (x := x) (P := P) (t := t₂) hset.distinct (min p.slotTypes.length arguments.length)
      (fun i v hv => by rw [hvalues₂]; exact hvalues₁ i v hv) (Nat.min_le_right _ _) howned₂
      (fun i hi => by rw [hlocals₂ i (Nat.lt_min.mp hi).1]; rfl) fun i hi =>
        hset.pointers i (Nat.lt_min.mp hi).1
  refine ⟨t₃, ?_, ?_, ?_, ?_, howned₃, ?_⟩
  · simp only [Specialized.entryLines, Specialized.arrivalLines, harrived, List.map_append]
    refine Target.steps_append (Target.steps_append (Target.steps_append hsteps₁ ?_) hsteps₂) hsteps₃
    exact Target.steps_cons hlabel rfl
  · simp only [Source.entrySlots, List.length_append, List.length_replicate]
    omega
  · intro i hin v hv
    dsimp only [Source.entrySlots] at hv
    rw [hstored i (hset.pointers i hin)]
    by_cases hargument : i < arguments.length
    · rwa [if_pos (Nat.lt_min.mpr ⟨hin, hargument⟩), ← List.getElem?_append_left hargument]
    · rw [if_neg fun hi => hargument (Nat.lt_min.mp hi).2, hlocals₂ i hin]
      rw [List.getElem?_append_right (Nat.le_of_not_lt hargument), List.getElem?_replicate] at hv
      split at hv
      · exact hv
      · cases hv
  · rw [hvalues₃, hvalues₂]
    exact howned₁
  · intro field hfield
    rw [hglobals₃, hglobals₂, hglobals₁]
    exact hagree field hfield

/-! ## Functions and all that they call -/

/-- What a function is linked against: its own block and those of all that it calls, the
declarations, and the variables that it has to share with the method. -/
structure Linked (a : Assembly) (ν : List Name) (exposed : List FieldId) (P : Target.Program)
    (f : Function) : Prop where
  distinct : Distinct ν
  provides : Provides ν P
  blocks : ∀ g, f.Below g →
    P.function? g.id.raw = some ((a.lines g.key).tail.map (Line.under ν))
  fields : ∀ field, Name.global field ∈ ν → Constructible a (.variable field) → field ∈ exposed
  exposed : ∀ field ∈ exposed, Name.global field ∈ ν

theorem Linked.callee {f g : Function} (h : Linked a ν exposed P f) (hg : g ∈ f.callees) :
    Linked a ν exposed P g :=
  { h with blocks := fun g' hbelow => h.blocks g' (.head hg hbelow) }

/-- A lowered function does as the method of its key does. -/
theorem Lowered.alike (hnumbered : a.Numbered) {f : Function} (hf : Lowered a ν f) {m : MethodDef}
    (hm : a.method? f.key.method = some m)
    (hlength : f.key.parameters.length = m.effectiveParameters.length)
    (hreturns : ∀ m', Relation.ReflTransGen (MethodDef.Calls a) m m' → m'.Returns)
    (hlinked : Linked a ν exposed P f) : Alike a x P ν exposed m f.key := by
  -- By induction on the tree of calls, so each callee does as its method already.
  induction hf generalizing m with
  | @intro f hid _ _ hknown hconstructible hcallees _ ih =>
    obtain ⟨p, hp⟩ := hconstructible.specialized
    obtain ⟨hkey, hmethod, -⟩ := Assembly.specialized?_eq_some.mp hp
    obtain rfl := Option.some.inj (hm.symm.trans hmethod)
    rw [← hkey] at hconstructible hp
    have hlines : a.lines f.key = p.lines a := by rw [Assembly.lines, ← hkey, hp]
    rw [hlines] at hknown
    have hcode : ∀ line ∈ p.codeLines a p.reserved p.method.code.instructions,
        ∀ n ∈ line.names, n ∈ ν := fun line hline => hknown line (by simp [Specialized.lines, hline])
    have hincoming : ∀ i < p.key.parameters.length, p.incoming i ∈ ν := fun i hi =>
      hknown _ (Specialized.parameterLine_mem a (List.getElem?_eq_getElem hi)) _
        (by simp [Specialized.parameterLine, Line.names, Operand.name?])
    have hpointers : ∀ i < p.slotTypes.length, p.pointer i ∈ ν := fun i hi =>
      hknown _ (Specialized.slotLine_mem a (List.getElem?_eq_getElem hi)) _
        (by simp [Specialized.slotLine, Line.names, Operand.name?])
    have hset : Settled ν p exposed P :=
      ⟨hlinked.distinct, hlinked.provides, hpointers, hlinked.exposed⟩
    have hsensible : ∀ i ∈ p.method.code.instructions, ∃ op, i.decode = .ok op ∧
        Sensible a x P ν exposed p op := by
      intro i hi
      obtain ⟨op, hop, hfeasible⟩ := hconstructible.operation hp hi
      refine ⟨op, hop, hfeasible.refers, fun wire field hwire hfield => ?_,
        fun result wire slots callee target heq hcallee htarget => ?_⟩
      · refine hlinked.fields field ?_ (hfeasible.global wire field hwire hfield)
        obtain ⟨number, hmem⟩ := p.mem_codeLines a hi hop p.reserved
        obtain ⟨line, hline, hname⟩ := Specialized.global_mem_operationLines hwire hfield
        exact hcode line (hmem line hline) _ hname
      · subst heq
        obtain ⟨target', htarget', hid', -, hcount⟩ := Specialized.target?_of_calleeKey? hcallee
        obtain rfl := Option.some.inj (htarget.symm.trans htarget')
        obtain ⟨id, -, hfound⟩ := Option.bind_eq_some_iff.mp htarget
        have hmem : callee ∈ f.callees.map Function.key := by
          rw [hcallees, Assembly.callees, ← hkey, hp]
          exact Specialized.mem_calledBy hi hop (by simp [Specialized.called, hcallee])
        obtain ⟨g, hg, rfl⟩ := List.mem_map.mp hmem
        refine ih g hg ?_ hcount (fun m' hpath => hreturns m' (.head ?_ hpath)) (hlinked.callee hg)
        · rw [hid', hnumbered id target hfound]
          exact hfound
        · exact ⟨i, hi, result, wire, slots, hop, htarget⟩
    intro arguments globals memory harguments hagree
    -- The head and the arrivals lead to states that follow each other; the code goes on from there.
    obtain ⟨t, hsteps, hfollows⟩ := entry_steps (a := a) (x := x) hset hincoming
      (by rw [hkey]; exact hlength) harguments hagree
    obtain ⟨r, globals', memory', hsource, htarget, hagree', hframe⟩ :=
      code_runs hset hfollows p.method.code.instructions p.reserved hsensible
        (hreturns p.method .refl) hcode [(⟨.functionEnd, []⟩ : Line).under ν]
    have hblock := hlinked.blocks f .refl
    rw [hid] at hblock
    refine ⟨r, globals', memory', hsource, ⟨_, hblock, ?_⟩, hagree', hframe⟩
    rw [hlines, Specialized.lines_eq, List.tail_cons, List.map_append, List.map_append]
    exact .of_steps hsteps htarget

end ShaderLowering
