import ShaderLowering.Proofs.Lowering.Rules

/-!
# Drafts and sheets

A `Sheet` is a draft of a function with names in the place of ids and with keys in the place of
callees; `Drawn` says that a draft is such a sheet with the ids that its names have.  `Draws` is what
is shown of the steps that write a function: they lead from a draft of one sheet to a draft of another,
or fail for cause.  How the sheet changes does not depend on ids, which is what makes all runs of a
construction alike.
-/

namespace ShaderLowering

open Construction
open Spirv

/-- A draft of a function with names in the place of ids. -/
@[ext] structure Sheet where
  lines : List Line
  slots : List TypeId
  callees : List FunctionKey
  /-- How many ids the function has taken. -/
  taken : Nat

namespace Sheet

/-- Appends lines. -/
def write (w : Sheet) (lines : List Line) : Sheet :=
  { w with lines := w.lines ++ lines }

/-- Takes ids. -/
def take (w : Sheet) (n : Nat) : Sheet :=
  { w with taken := w.taken + n }

@[simp] theorem taken_write (w : Sheet) (lines : List Line) : (w.write lines).taken = w.taken := rfl

@[simp] theorem slots_write (w : Sheet) (lines : List Line) : (w.write lines).slots = w.slots := rfl

@[simp] theorem taken_take (w : Sheet) (n : Nat) : (w.take n).taken = w.taken + n := rfl

@[simp] theorem slots_take (w : Sheet) (n : Nat) : (w.take n).slots = w.slots := rfl

end Sheet

/-- A slot of a function with ids in the place of names. -/
def Specialized.slotAt (a : Assembly) (p : Specialized) (ν : List Name) (position : Nat)
    (type : TypeId) : LocalSlot :=
  ⟨ident ν (p.pointer position), type, ident ν (.value (a.valueType type))⟩

/-- A draft is a sheet with ids in the place of names. -/
structure Drawn (a : Assembly) (p : Specialized) (h : History) (d : Draft) (w : Sheet) : Prop where
  body : d.body = wordsAt (names h) w.lines
  known : ∀ line ∈ w.lines, ∀ n ∈ line.names, n ∈ names h
  slots : d.slots = w.slots.mapIdx (p.slotAt a (names h))
  slots_known : ∀ i type, w.slots[i]? = some type →
    p.pointer i ∈ names h ∧ Name.value (a.valueType type) ∈ names h
  callees : d.callees.map Function.key = w.callees
  lowered : ∀ g ∈ d.callees, Lowered a (names h) g
  taken : notes h (.function p.key) = (List.range w.taken).map fun n => .issue (p.own n)

variable {a : Assembly} {roots : Key → Prop} {p : Specialized} {h : History} {w w' w'' : Sheet}
  {α β : Type}

/-- A draft stays a draft of its sheet, but for the number of ids taken. -/
theorem Drawn.grow {d : Draft} (hd : Drawn a p h d w) {l : History} {n : Nat}
    (hnotes : notes (h ++ l) (.function p.key) = (List.range n).map fun n => .issue (p.own n)) :
    Drawn a p (h ++ l) d { w with taken := n } := by
  obtain ⟨hbody, hknown, hslots, hslotsKnown, hcallees, hlowered, htaken⟩ := hd
  constructor
  case body => rw [names_append, wordsAt_grow hknown, hbody]
  case known => exact fun line hline n hn => by simp [hknown line hline n hn]
  case slots =>
    rw [hslots, names_append]
    refine List.ext_getElem? fun i => ?_
    rw [List.getElem?_mapIdx, List.getElem?_mapIdx]
    cases hi : w.slots[i]? with
    | none => rfl
    | some type =>
      obtain ⟨hpointer, htype⟩ := hslotsKnown i type hi
      simp only [Option.map_some, Specialized.slotAt, ident_append hpointer, ident_append htype]
  case slots_known =>
    intro i type hi
    obtain ⟨hpointer, htype⟩ := hslotsKnown i type hi
    simp [hpointer, htype]
  case callees => exact hcallees
  case lowered =>
    intro g hg
    rw [names_append]
    exact (hlowered g hg).grow _
  case taken => exact hnotes

theorem Drawn.quiet {d : Draft} {h' : History} (hd : Drawn a p h d w)
    (hquiet : Quiet (.construct (.function p.key)) h h') : Drawn a p h' d w := by
  have hnotes := hquiet.notes
  obtain ⟨l, rfl⟩ := hquiet.exists_append
  exact hd.grow (hnotes.trans hd.taken)

theorem run_liftM (t : Construct α) (d : Draft) :
    (liftM t : BodyWriter α).run d = t >>= fun v => pure (v, d) :=
  rfl

/-- What is shown of a step that writes a function. -/
def Draws (a : Assembly) (roots : Key → Prop) (p : Specialized) (h : History) (x : BodyWriter α)
    (w w' : Sheet) (R : History → α → Prop) : Prop :=
  ∀ d, Drawn a p h d w →
    Makes a roots (.construct (.function p.key)) (¬Constructible a (.function p.key)) h (x.run d)
      fun h' r => Drawn a p h' r.2 w' ∧ R h' r.1

namespace Draws

variable {x : BodyWriter α} {f : α → BodyWriter β} {R R' : History → α → Prop}
  {S : History → β → Prop}

theorem mono (hx : Draws a roots p h x w w' R)
    (himp : ∀ h' v, h <+: h' → R h' v → R' h' v) : Draws a roots p h x w w' R' :=
  fun d hd => .mono (hx d hd) fun h' r hbefore hr => ⟨hr.1, himp h' r.1 hbefore hr.2⟩

theorem of_eq {w₁ : Sheet} (heq : w₁ = w') (hx : Draws a roots p h x w w₁ R) :
    Draws a roots p h x w w' R :=
  heq ▸ hx

theorem bind (hx : Draws a roots p h x w w' R)
    (hf : ∀ h' v, h <+: h' → R h' v → Draws a roots p h' (f v) w' w'' S) :
    Draws a roots p h (x >>= f) w w'' S := by
  intro d hd
  rw [StateT.run_bind]
  exact .bind (hx d hd) fun h' r hbefore hr => hf h' r.1 hbefore hr.2 r.2 hr.1

theorem pure {v : α} (hv : ∀ h', Quiet (.construct (.function p.key)) h h' → R h' v) :
    Draws a roots p h (Pure.pure v : BodyWriter α) w w R := by
  intro d hd
  rw [StateT.run_pure]
  exact .pure fun h' hquiet => ⟨hd.quiet hquiet, hv h' hquiet⟩

/-- A step that leaves the draft alone. -/
theorem lift {t : Construct α}
    (ht : Makes a roots (.construct (.function p.key)) (¬Constructible a (.function p.key)) h t
      fun h' v => Quiet (.construct (.function p.key)) h h' ∧ R h' v)
    (hgrow : ∀ h' v l, R h' v → R (h' ++ l) v) :
    Draws a roots p h (liftM t : BodyWriter α) w w R := by
  intro d hd
  rw [run_liftM]
  refine .bind ht fun h' v _ ⟨hquiet, hv⟩ => .pure fun h'' hquiet' => ?_
  obtain ⟨l, rfl⟩ := hquiet'.exists_append
  exact ⟨hd.quiet (hquiet.trans hquiet'), hgrow h' v l hv⟩

theorem fail {fault : Fault} (hbad : ¬Constructible a (.function p.key)) :
    Draws a roots p h (BodyWriter.fail fault : BodyWriter α) w w' R := by
  intro d hd
  rw [BodyWriter.fail, run_liftM]
  exact .bind (R := fun _ _ => False) (.fail hbad) fun _ _ _ hno => hno.elim

theorem fail_bind {fault : Fault} (hbad : ¬Constructible a (.function p.key)) :
    Draws a roots p h (BodyWriter.fail fault >>= f) w w' S := by
  have hfail : Draws a roots p h (BodyWriter.fail fault : BodyWriter α) w w fun _ _ => False :=
    .fail hbad
  exact .bind hfail fun _ _ _ hno => hno.elim

theorem ofOption {fault : Fault} {o : Option α}
    (hbad : o = none → ¬Constructible a (.function p.key)) :
    Draws a roots p h (BodyWriter.ofOption fault o : BodyWriter α) w w fun _ v => o = some v :=
  .lift (.ofOption hbad) fun _ _ _ hv => hv

/-- A step that depends on the draft. -/
theorem get_bind {f : Draft → BodyWriter α}
    (hf : ∀ d, Drawn a p h d w → Draws a roots p h (f d) w w' R) :
    Draws a roots p h (get >>= f) w w' R := by
  intro d hd
  rw [StateT.run_bind, StateT.run_get, pure_bind]
  exact hf d hd d hd

/-- An instruction is appended to the body. -/
theorem write (line : Line) {op : Op} {operands : List Word}
    (hline : line.under (names h) = ⟨op.code, operands⟩) (hknown : ∀ n ∈ line.names, n ∈ names h) :
    Draws a roots p h (BodyWriter.write op operands) w (w.write [line]) fun _ _ => True := by
  intro d hd
  rw [BodyWriter.write, StateT.run_modify]
  refine .pure fun h' hquiet => ⟨?_, trivial⟩
  refine Drawn.quiet (h := h) ?_ hquiet
  obtain ⟨hbody, hall, hslots, hslotsKnown, hcallees, hlowered, htaken⟩ := hd
  refine ⟨?_, ?_, hslots, hslotsKnown, hcallees, hlowered, htaken⟩
  · rw [Sheet.write, wordsAt_append, ← hbody]
    simp [wordsAt, hline, emit]
  · intro line' hline'
    rcases List.mem_append.mp hline' with hline' | hline'
    · exact hall line' hline'
    · rwa [List.mem_singleton.mp hline']

/-- The function takes an id. -/
theorem freshId : Draws a roots p h BodyWriter.freshId w (w.take 1) fun h' i =>
    Stands (names h') (p.own w.taken) i := by
  intro d hd
  have hnew : .issue (.own p.key w.taken) ∉ notes h (.function p.key) := by
    simp [hd.taken, Specialized.own]
  rw [BodyWriter.freshId, run_liftM]
  refine .bind (.freshId hnew) fun h' i hbefore hissued => .pure fun h'' hquiet => ?_
  obtain ⟨l, rfl⟩ := hbefore
  obtain ⟨hi, hnotes⟩ := hissued
  refine ⟨Drawn.quiet ?_ hquiet, ?_⟩
  · refine hd.grow ?_
    rw [hnotes, hd.taken, List.range_succ, List.map_append]
    rfl
  · obtain ⟨l', rfl⟩ := hquiet.exists_append
    rw [names_append]
    exact hi.append _

/-- A function joins the callees. -/
theorem callee {f : Function} (hf : Lowered a (names h) f) :
    Draws a roots p h (modify fun draft => { draft with callees := draft.callees ++ [f] }) w
      { w with callees := w.callees ++ [f.key] } fun _ _ => True := by
  intro d hd
  rw [StateT.run_modify]
  refine .pure fun h' hquiet => ⟨Drawn.quiet (h := h) ?_ hquiet, trivial⟩
  obtain ⟨hbody, hall, hslots, hslotsKnown, hcallees, hlowered, htaken⟩ := hd
  refine ⟨hbody, hall, hslots, hslotsKnown, ?_, fun g hg => ?_, htaken⟩
  · rw [List.map_append, hcallees]
    rfl
  · rcases List.mem_append.mp hg with hg | hg
    · exact hlowered g hg
    · rwa [List.mem_singleton.mp hg]

/-- A variable becomes the next slot. -/
theorem addSlot (type : TypeId) {s : LocalSlot} (hs : s = p.slotAt a (names h) w.slots.length type)
    (hpointer : p.pointer w.slots.length ∈ names h) (htype : .value (a.valueType type) ∈ names h) :
    Draws a roots p h (modify fun draft => { draft with slots := draft.slots ++ [s] }) w
      { w with slots := w.slots ++ [type] } fun _ _ => True := by
  intro d hd
  rw [StateT.run_modify]
  refine .pure fun h' hquiet => ⟨Drawn.quiet (h := h) ?_ hquiet, trivial⟩
  obtain ⟨hbody, hall, hslots, hslotsKnown, hcallees, hlowered, htaken⟩ := hd
  refine ⟨hbody, hall, ?_, fun i t hi => ?_, hcallees, hlowered, htaken⟩
  · rw [List.mapIdx_concat, hslots, hs]
  · simp only [List.getElem?_append] at hi
    split at hi
    · exact hslotsKnown i t hi
    -- The only slot that was not there before is the one just added.
    · next hge =>
      have hlast : i - w.slots.length = 0 ∧ type = t := by
        simpa [List.getElem?_singleton] using hi
      obtain rfl := hlast.2
      obtain rfl : i = w.slots.length := by omega
      exact ⟨hpointer, htype⟩

/-! ## Lists of steps -/

section Lists

variable {xs : List α}

/-- A step for each member of a list, each of which changes the sheet in its own way. -/
theorem forM {f : α → BodyWriter PUnit} {step : Sheet → α → Sheet} {I : Sheet → Prop}
    {C : α → Prop} (hw : I w) (hkeep : ∀ w' x, I w' → I (step w' x))
    (hf : ∀ x ∈ xs, ∀ h' w', h <+: h' → I w' →
      Draws a roots p h' (f x) w' (step w' x) fun _ _ => C x) :
    Draws a roots p h (xs.forM f) w (xs.foldl step w) fun _ _ => ∀ x ∈ xs, C x := by
  induction xs generalizing h w with
  | nil => exact .pure fun _ _ => nofun
  | cons x xs ih =>
    rw [List.foldl_cons]
    refine .bind (hf x (by simp) h w (List.prefix_refl h) hw) fun h₁ _ hbefore₁ hx => ?_
    refine .mono (ih (hkeep w x hw) fun x' hx' h' w' hbefore hw' =>
      hf x' (by simp [hx']) h' w' (hbefore₁.trans hbefore) hw') fun h₂ _ _ hxs => ?_
    exact List.forall_mem_cons.mpr ⟨hx, hxs⟩

/-- A step for each member of a list that takes one id and writes one line. -/
theorem mapM_lines (line : α → Nat → Line) {f : α → BodyWriter Id} {C : α → Prop}
    (hf : ∀ x ∈ xs, ∀ h' w', h <+: h' → w'.slots = w.slots → w.taken ≤ w'.taken →
      Draws a roots p h' (f x) w' ((w'.take 1).write [line x w'.taken]) fun h'' i =>
        C x ∧ Stands (names h'') (p.own w'.taken) i) :
    Draws a roots p h (xs.mapM f) w
      ((w.take xs.length).write ((xs.zipIdx w.taken).map fun pair => line pair.1 pair.2))
      fun h' ids => (∀ x ∈ xs, C x) ∧ List.Forall₂ (fun n i => Stands (names h') (p.own n) i)
        (List.range' w.taken xs.length) ids := by
  induction xs generalizing h w with
  | nil =>
    have hsame : (w.take 0).write [] = w := by simp [Sheet.take, Sheet.write]
    rw [List.length_nil, List.zipIdx_nil, List.map_nil, hsame]
    exact .pure fun _ _ => ⟨nofun, .nil⟩
  | cons x xs ih =>
    rw [List.mapM_cons]
    -- The line is written with the id that the step has taken, whatever the others take after it.
    refine .bind (hf x (by simp) h w (List.prefix_refl h) rfl le_rfl) fun h₁ i hbefore₁ ⟨hx, hi⟩ => ?_
    refine .bind (ih fun x' hx' h' w' hbefore hslots htaken =>
      hf x' (by simp [hx']) h' w' (hbefore₁.trans hbefore) hslots (Nat.le_of_succ_le htaken))
      fun h₂ ids hbefore₂ ⟨hxs, hids⟩ => ?_
    refine .of_eq ?_ (.pure fun h₃ hquiet => ⟨List.forall_mem_cons.mpr ⟨hx, hxs⟩, ?_⟩)
    · simp [Sheet.take, Sheet.write, Nat.add_comm, Nat.add_left_comm]
    · rw [List.length_cons, List.range'_succ]
      exact .cons ((hi.later hbefore₂).later hquiet.prefix)
        (hids.imp fun n i hn => hn.later hquiet.prefix)

/-- A step for each member of a list that leaves the sheet alone. -/
theorem mapM_option {f : α → BodyWriter β} {F : α → Option β}
    (hf : ∀ x ∈ xs, ∀ h', h <+: h' → Draws a roots p h' (f x) w w fun _ v => F x = some v) :
    Draws a roots p h (xs.mapM f) w w fun _ vs => xs.mapM F = some vs := by
  induction xs generalizing h with
  | nil => exact .pure fun _ _ => rfl
  | cons x xs ih =>
    rw [List.mapM_cons]
    refine .bind (hf x (by simp) h (List.prefix_refl h)) fun h₁ v hbefore₁ hv => ?_
    refine .bind (ih fun x' hx' h' hbefore => hf x' (by simp [hx']) h' (hbefore₁.trans hbefore))
      fun h₂ vs _ hvs => .pure fun _ _ => ?_
    rw [List.mapM_cons, hv, hvs]
    rfl

end Lists

end Draws

end ShaderLowering
