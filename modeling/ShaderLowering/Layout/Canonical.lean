import ShaderLowering.FirstAppearances
import ShaderLowering.Layout.CallOrder
import ShaderLowering.Layout.Placement

/-!
# Canonical layout

Ids are issued and declarations are made in whatever order requests for them arrive.  The canonical
layout forgets that order: declarations are placed by use, ids are renumbered from 1 by first
appearance (entry points and modes, declarations, function bodies, and only then annotations), and
annotations are sorted under their new numbers.  The order of functions is already decided by the
calls between them.
-/

namespace ShaderLowering.Layout

open Spirv

/-! ## Renumbering -/

/-- The number of an id by its place among the distinct ids; numbers begin with 1. -/
def newId (distinct : List Word) (id : Word) : Word :=
  UInt32.ofNat (distinct.idxOf id + 1)

/-! ## Order of annotations -/

/-- Lexicographic order of operand lists, a proper beginning first. -/
def operandsLe : List Word → List Word → Bool
  | [], _ => true
  | _ :: _, [] => false
  | a :: as, b :: bs => a < b || (a == b && operandsLe as bs)

/-- Order of instructions: by opcode, then by operands. -/
def instructionLe (a b : Instruction) : Bool :=
  a.opcode < b.opcode || (a.opcode == b.opcode && operandsLe a.operands b.operands)

/-! ## The layout -/

/-- The word streams of a module before its functions, as they were written. -/
structure Sections where
  header : List Word
  annotations : List Word
  declarations : List Word
  deriving DecidableEq, Repr

/-- Everything after the header words of a module, and its id bound. -/
def canonicalize (table : OpTable) (sections : Sections) (bodies : List (List Word)) :
    List Word × Word :=
  let header := Instruction.decode sections.header
  let annotations := Instruction.decode sections.annotations
  let functions := bodies.flatMap Instruction.decode
  let used := (header ++ functions).flatMap Instruction.ids
  let declarations := placed table (Instruction.decode sections.declarations) used
  -- Annotations are numbered last, though they are written before the declarations.
  let distinct := firstAppearances
    ((header ++ declarations ++ functions ++ annotations).flatMap Instruction.ids)
  let renumber := List.map (Instruction.mapIds (newId distinct))
  let sorted := (renumber annotations).mergeSort instructionLe
  let instructions := renumber header ++ sorted ++ renumber declarations ++ renumber functions
  (instructions.flatMap Instruction.encode, UInt32.ofNat (distinct.length + 1))

end ShaderLowering.Layout
