import ShaderLowering.Lowering.Function

/-!
# Order of functions

The functions of a module are those reached from its entry points, callers before their callees,
in the order in which a depth-first walk first meets them: entry points in list order, calls in
call order.  The walk keeps the functions still to be looked at on a stack and passes over every
id that it has met before.
-/

namespace ShaderLowering.Layout

theorem sizeOf_append {α : Type} [SizeOf α] (xs ys : List α) :
    sizeOf (xs ++ ys) + 1 = sizeOf xs + sizeOf ys := by
  induction xs with
  | nil => simp [Nat.add_comm]
  | cons x xs ih => simp only [List.cons_append, List.cons.sizeOf_spec]; omega

/-- Depth-first preorder of the functions on a stack and below, without ids met before. -/
def callOrderFrom (met : List Spirv.Id) : List Function → List Function
  | [] => []
  | f :: rest =>
    if f.id ∈ met then
      callOrderFrom met rest
    else
      f :: callOrderFrom (f.id :: met) (f.callees ++ rest)
termination_by stack => sizeOf stack
decreasing_by
  · simp only [List.cons.sizeOf_spec]; omega
  · have joined := sizeOf_append f.callees rest
    have inside : sizeOf f.callees < sizeOf f := by
      cases f; simp only [Function.mk.sizeOf_spec]; omega
    simp only [List.cons.sizeOf_spec]
    omega

/-- The functions that entry points reach, in depth-first preorder. -/
def callOrder (entries : List Function) : List Function :=
  callOrderFrom [] entries

end ShaderLowering.Layout
