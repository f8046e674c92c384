import ShaderLowering.Layout.IdPositions

/-!
# Placement of declarations

Each declaration goes right after the declarations that it refers to.  The order is the depth-first
postorder of the references, begun at the ids that the rest of the module uses, in the order of
their use; declarations that nothing leads to follow in the order in which they were made.

The walk itself knows nothing of instructions.  `postorder next unvisited pending` works off a
stack of visits: entering a node removes it from the unvisited ones and schedules its successors
and, after them, leaving it; leaving a node writes it down.  A node that is entered again while it
is already removed is passed over, which is what ends the walk on a cycle.
-/

namespace ShaderLowering.Layout

open Spirv

/-- One pending step of a depth-first walk. -/
inductive Visit where
  | enter (node : Nat)
  | leave (node : Nat)
  deriving DecidableEq, Repr

/-- Nodes in the order in which a depth-first walk leaves them. -/
def postorder (next : Nat → List Nat) (unvisited : List Nat) : List Visit → List Nat
  | [] => []
  | .leave node :: pending => node :: postorder next unvisited pending
  | .enter node :: pending =>
    if node ∈ unvisited then
      postorder next (unvisited.erase node)
        ((next node).map .enter ++ .leave node :: pending)
    else
      postorder next unvisited pending
termination_by pending => (unvisited.length, pending.length)
decreasing_by
  · exact Prod.Lex.right _ (Nat.lt_succ_self _)
  · rename_i member
    exact Prod.Lex.left _ _ (by
      rw [List.length_erase_of_mem member]
      exact Nat.sub_lt (List.length_pos_of_mem member) Nat.one_pos)
  · exact Prod.Lex.right _ (Nat.lt_succ_self _)

/-- For each result id the positions of its declarations, the last declaration first. -/
def declarationIndex (table : OpTable) (declarations : List Instruction) : List (Word × Nat) :=
  (declarations.zipIdx.filterMap fun (d, position) =>
    (d.resultId? table).map fun id => (id, position)).reverse

def declarationsOf (index : List (Word × Nat)) (ids : List Word) : List Nat :=
  ids.filterMap fun id => index.lookup id

/-- Positions of the declarations that the declaration at a position refers to. -/
def references (index : List (Word × Nat)) (declarations : List Instruction) (position : Nat) :
    List Nat :=
  match declarations[position]? with
  | some d => declarationsOf index d.ids
  | none => []

/-- Positions of declarations in the order in which they are placed: those that the used ids lead
to, in the order of use, then the others. -/
def placement (table : OpTable) (declarations : List Instruction) (used : List Word) : List Nat :=
  let index := declarationIndex table declarations
  let everything := List.range declarations.length
  postorder (references index declarations) everything
    ((declarationsOf index used ++ everything).map .enter)

def placed (table : OpTable) (declarations : List Instruction) (used : List Word) :
    List Instruction :=
  (placement table declarations used).filterMap (declarations[·]?)

end ShaderLowering.Layout
