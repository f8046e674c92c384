import ShaderLowering.Spirv.Instruction

/-!
# Names of platform representations

A type that the platform lays out names its shape: a head and arguments, separated by backticks, as
in `OpTypeFloat` and `32`.  `Representation.parse` reads such a name.  Segments beyond those that a
head takes are ignored.  A number is a non-empty run of decimal digits that fits a word, with at
most one plus sign before it.

The size of a vector is kept as it was read, because the element is looked up and constructed
before the size matters.
-/

namespace ShaderLowering

open Spirv (Word)

/-- The parts of a text between separators; there is always at least one. -/
def segments (separator : Char) : List Char → List (List Char)
  | [] => [[]]
  | c :: cs =>
    if c = separator then
      [] :: segments separator cs
    else
      match segments separator cs with
      | [] => [[c]]
      | first :: others => (c :: first) :: others

/-- The number that decimal digits denote after those read so far, if all are digits. -/
def digitsFrom (read : Nat) : List Char → Option Nat
  | [] => some read
  | c :: cs => if c.isDigit then digitsFrom (10 * read + (c.toNat - '0'.toNat)) cs else none

/-- Reads a number that fits a word. -/
def number? (text : List Char) : Option Word :=
  let digits := match text with
    | '+' :: rest => rest
    | _ => text
  match digits with
  | [] => none
  | _ =>
    (digitsFrom 0 digits).bind fun n => if n < UInt32.size then some (UInt32.ofNat n) else none

/-- What the name of a platform representation asks for. -/
inductive Representation where
  | void
  | int (width : Word) (signed : Bool)
  | float (width : Word)
  | vector (element : String) (size : Option Word)
  /-- A known head with a missing or bad argument. -/
  | malformed
  /-- A head that is not known. -/
  | unknown
  deriving DecidableEq, Repr

namespace Representation

/-- Reads the segments of a name. -/
def ofSegments : List (List Char) → Representation
  | [] => .unknown
  | head :: arguments =>
    -- A number that is missing is as bad as one that is not a number.
    let number := fun (position : Nat) => (arguments[position]?).bind number?
    match String.ofList head with
    | "OpTypeVoid" => .void
    | "OpTypeInt" =>
      match number 0, number 1 with
      | some width, some signedness => .int width (signedness != 0)
      | _, _ => .malformed
    | "OpTypeFloat" =>
      match number 0 with
      | some width => .float width
      | none => .malformed
    | "OpTypeVector" =>
      match arguments with
      | [] => .malformed
      | element :: _ => .vector (String.ofList element) (number 1)
    | _ => .unknown

def parse (name : String) : Representation :=
  ofSegments (segments '\x60' name.toList)

end Representation

end ShaderLowering
