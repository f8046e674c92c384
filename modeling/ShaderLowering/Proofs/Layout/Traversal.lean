import ShaderLowering.Proofs.Layout.Preorder

/-!
# One stack instead of a recursion

The order of functions as one would write it down is a recursion: `visit` writes a function down, unless
one with its id is there already, and then visits what it calls, in call order.  The layout keeps one
stack of functions instead, takes the topmost one at a time and puts what it calls on top, the first call
last; so a function may lie on the stack many times before it is met (`Walk.step`).

The two agree, for all functions (`visitAll_eq_append`), because a walk over one stack and then another is
a walk over their concatenation: what is on the stack stands for the visits that the recursion has still
to make.  And the loop comes to its end, because what it takes from the stack is larger than what it puts
back (`Walk.leads`).  Where functions are told apart by their ids, `callOrder_depthFirst` says all that
is to be said of the order.
-/

namespace ShaderLowering.Layout

open Relation (ReflTransGen)

/-! ## The recursion -/

mutual

/-- Visits a function after others have been written down: if its id is new, the function is written
down and those that it calls are visited. -/
def visit (order : List Function) : Function → List Function
  | ⟨id, key, returnType, body, callees⟩ =>
    if id ∈ order.map Function.id then
      order
    else
      visitAll (order ++ [⟨id, key, returnType, body, callees⟩]) callees

/-- Visits functions one after another. -/
def visitAll (order : List Function) : List Function → List Function
  | [] => order
  | f :: rest => visitAll (visit order f) rest

end

/-! ## The loop -/

/-- The loop between two of its steps: the functions still to be looked at, the topmost one first, the
ids that have been met, and what has been written down. -/
structure Walk where
  stack : List Function
  met : List Spirv.Id
  order : List Function

namespace Walk

/-- Puts functions on a stack, the last one first, so that the first one comes to lie on top. -/
def push (stack functions : List Function) : List Function :=
  functions.reverse.foldl (fun stack f => f :: stack) stack

/-- The entries are on the stack and nothing has been met. -/
def start (entries : List Function) : Walk :=
  ⟨push [] entries, [], []⟩

/-- Takes a function from the stack; if its id is new, the function is written down and what it calls is
put on the stack.  The loop ends when the stack is empty. -/
def step : Walk → Option Walk
  | ⟨[], _, _⟩ => none
  | ⟨f :: stack, met, order⟩ =>
    if f.id ∈ met then
      some ⟨stack, met, order⟩
    else
      some ⟨push stack f.callees, f.id :: met, order ++ [f]⟩

/-- The loop leads from one state to another. -/
def Leads : Walk → Walk → Prop :=
  ReflTransGen fun w w' => w.step = some w'

theorem push_eq (stack functions : List Function) : push stack functions = functions ++ stack := by
  rw [push, List.foldl_reverse]
  induction functions with
  | nil => rfl
  | cons f functions ih => rw [List.foldr_cons, ih, List.cons_append]

/-- The loop ends, having written down what the walk over its stack writes down. -/
theorem leads (met : List Spirv.Id) (stack order : List Function) :
    ∃ met', Leads ⟨stack, met, order⟩ ⟨[], met', order ++ callOrderFrom met stack⟩ := by
  fun_induction callOrderFrom met stack generalizing order with
  | case1 met => exact ⟨met, by rw [List.append_nil]; exact .refl⟩
  | case2 met f rest hmet ih =>
    obtain ⟨met', hrest⟩ := ih order
    exact ⟨met', .head (by rw [step, if_pos hmet]) hrest⟩
  | case3 met f rest hmet ih =>
    obtain ⟨met', hrest⟩ := ih (order ++ [f])
    rw [List.append_assoc, List.singleton_append] at hrest
    exact ⟨met', .head (by rw [step, if_neg hmet, push_eq]) hrest⟩

end Walk

/-! ## The two agree -/

/-- The walk over one function and then the others. -/
theorem callOrderFrom_cons (met : List Spirv.Id) (f : Function) (rest : List Function) :
    callOrderFrom met (f :: rest) = callOrderFrom met [f] ++
      callOrderFrom ((callOrderFrom met [f]).map Function.id ++ met) rest := by
  rw [← callOrderFrom_append, List.singleton_append]

mutual

/-- A visit adds what the walk over the function writes down. -/
theorem visit_eq_append (order : List Function) : ∀ f : Function,
    visit order f = order ++ callOrderFrom (order.map Function.id) [f]
  | ⟨id, key, returnType, body, callees⟩ => by
    rw [visit, callOrderFrom]
    split
    · rw [callOrderFrom, List.append_nil]
    · have hmet : ∀ i, i ∈ (order ++ [(⟨id, key, returnType, body, callees⟩ : Function)]).map Function.id ↔
          i ∈ id :: order.map Function.id := fun i => by simp [or_comm]
      rw [visitAll_eq_append, callOrderFrom_congr hmet, List.append_nil, List.append_assoc,
        List.singleton_append]

/-- Visits add what the walk over the functions writes down. -/
theorem visitAll_eq_append (order : List Function) : ∀ functions : List Function,
    visitAll order functions = order ++ callOrderFrom (order.map Function.id) functions
  | [] => by rw [visitAll, callOrderFrom, List.append_nil]
  | f :: rest => by
    have hmet : ∀ i, i ∈ (order ++ callOrderFrom (order.map Function.id) [f]).map Function.id ↔
        i ∈ (callOrderFrom (order.map Function.id) [f]).map Function.id ++ order.map Function.id :=
      fun i => by simp [or_comm]
    rw [visitAll, visit_eq_append, visitAll_eq_append, callOrderFrom_cons _ f rest,
      callOrderFrom_congr hmet, List.append_assoc]

end

/-- More entries only add to the order. -/
theorem callOrder_prefix (entries more : List Function) :
    callOrder entries <+: callOrder (entries ++ more) := by
  rw [callOrder, callOrder, callOrderFrom_append]
  exact List.prefix_append ..

/-! ## The order of functions -/

/-- The functions that entries lead to are told apart by their ids. -/
def ToldApart (entries : List Function) : Prop :=
  ∀ s ∈ entries, ∀ s' ∈ entries, ∀ f g, s.Below f → s'.Below g → f.id = g.id → f = g

/-- The loop over one stack ends and writes down what the recursion does, for any entries and calls: each
function that an entry leads to, once, and nothing else; and what it writes down for the first of the
entries comes first. -/
theorem callOrder_depthFirst {entries : List Function} (hids : ToldApart entries) :
    (∃ w, (Walk.start entries).Leads w ∧ w.step = none ∧ w.order = callOrder entries) ∧
      callOrder entries = visitAll [] entries ∧
      ((callOrder entries).map Function.id).Nodup ∧
      (∀ f, f ∈ callOrder entries ↔ ∃ s ∈ entries, s.Below f) ∧
      ∀ first, first <+: entries → callOrder first <+: callOrder entries := by
  refine ⟨?_, ?_, nodup_callOrder entries, fun f => ?_, ?_⟩
  -- The recursion with nothing below it is the loop on its own stack.
  · obtain ⟨met', hleads⟩ := Walk.leads [] entries []
    rw [List.nil_append] at hleads
    refine ⟨⟨[], met', callOrder entries⟩, ?_, rfl, rfl⟩
    rw [Walk.start, Walk.push_eq, List.append_nil]
    exact hleads
  · exact (visitAll_eq_append [] entries).symm
  -- What the entries lead to is closed under calls, and ids tell it apart.
  · refine mem_callOrder_iff (U := fun f => ∃ s ∈ entries, s.Below f) ?_ ?_ fun s hs => ⟨s, hs, .refl⟩
    · exact fun f ⟨s, hs, hbelow⟩ g hg => ⟨s, hs, .tail hbelow hg⟩
    · exact fun f g ⟨s, hs, hf⟩ ⟨s', hs', hg⟩ => hids s hs s' hs' f g hf hg
  · rintro first ⟨more, rfl⟩
    exact callOrder_prefix first more

namespace Diamond

/-- A function without a body. -/
def bare (id : Spirv.Word) (callees : List Function) : Function :=
  ⟨⟨id⟩, ⟨⟨0⟩, []⟩, ⟨0⟩, [], callees⟩

def leaf : Function := bare 4 []
def left : Function := bare 2 [leaf]
def right : Function := bare 3 [leaf]
def top : Function := bare 1 [left, right, left]

end Diamond

open Diamond in
/-- One function calls two others, the first of them twice, and both call a fourth.  The second of the two
is the first entry, and the caller is listed twice. -/
theorem callOrder_diamond :
    ToldApart [right, top, top] ∧
      visitAll [] [right, top, top] = [right, leaf, top, left] ∧
      callOrder [right, top, top] = [right, leaf, top, left] := by
  have hbelow : ∀ s ∈ [right, top, top], ∀ f, s.Below f → f ∈ [right, leaf, top, left] := by
    intro s hs f h
    induction h with
    | refl => simp only [List.mem_cons, List.not_mem_nil, or_false] at hs ⊢; tauto
    | @tail f g _ hg ih =>
      simp only [List.mem_cons, List.not_mem_nil, or_false] at ih
      rcases ih with rfl | rfl | rfl | rfl <;>
        simp only [right, leaf, top, left, bare, List.mem_cons, List.not_mem_nil, or_false] at hg ⊢ <;>
        tauto
  have hids : ToldApart [right, top, top] := by
    intro s hs s' hs' f g hf hg hid
    have hf := hbelow s hs f hf
    have hg := hbelow s' hs' g hg
    simp only [List.mem_cons, List.not_mem_nil, or_false] at hf hg
    rcases hf with rfl | rfl | rfl | rfl <;> rcases hg with rfl | rfl | rfl | rfl <;>
      first | rfl | exact absurd hid (by decide)
  have hvisit : visitAll [] [right, top, top] = [right, leaf, top, left] := by rfl
  exact ⟨hids, hvisit, (callOrder_depthFirst hids).2.1.trans hvisit⟩

end ShaderLowering.Layout
