import ShaderLowering.Bytes

/-!
# Operand tails

An instruction of the intermediate language is an opcode and a tail of big-endian operands.  A
`Reader` walks a tail from its first byte; a read that asks for more bytes than are left fails with
a `Truncated` report and leaves the reader where it was, so a caller may try a narrower read next.

`Read` therefore keeps the reader on both paths: its value is `Reader → Except Truncated α × Reader`.
A counted list of slots is read item by item, and whatever was read before a failing item stays
consumed.
-/

namespace ShaderLowering.Il

/-- The instructions of the intermediate language. -/
inductive Opcode where
  | call
  | ret
  | returnValue
  | load
  | loadField
  | storeField
  | loadUInt32
  | loadFloat32
  deriving DecidableEq, Repr

def Opcode.name : Opcode → String
  | .call => "Call"
  | .ret => "Return"
  | .returnValue => "ReturnValue"
  | .load => "Load"
  | .loadField => "LoadField"
  | .storeField => "StoreField"
  | .loadUInt32 => "LoadUInt32"
  | .loadFloat32 => "LoadFloat32"

/-- A local slot of a method, parameters first. -/
abbrev Slot := UInt32

/-- The slot number that stands for "no slot". -/
def noSlot : Slot := 0xFFFFFFFF

/-- A read past the end of a tail: where it started, how wide it was and what was left. -/
structure Truncated where
  opcode : Opcode
  offset : Nat
  needed : Nat
  available : Nat
  deriving DecidableEq, Repr

def Truncated.message (t : Truncated) : String :=
  t.opcode.name ++ " tail truncated: needed " ++ toString t.needed ++ " bytes at offset "
    ++ toString t.offset ++ ", " ++ toString t.available ++ " available"

/-- A position in a tail: the bytes before it are counted, the bytes after it are kept. -/
structure Reader where
  opcode : Opcode
  offset : Nat
  rest : List UInt8
  deriving DecidableEq, Repr

/-- A step of reading; the reader survives a failure. -/
abbrev Read (α : Type) := ExceptT Truncated (StateM Reader) α

namespace Reader

def start (opcode : Opcode) (tail : List UInt8) : Reader :=
  ⟨opcode, 0, tail⟩

/-- Takes exactly `n` bytes, or fails where it stands. -/
def take (n : Nat) : Read (List UInt8) := fun r =>
  if n ≤ r.rest.length then
    (.ok (r.rest.take n), { r with offset := r.offset + n, rest := r.rest.drop n })
  else
    (.error ⟨r.opcode, r.offset, n, r.rest.length⟩, r)

def word : Read UInt32 := do
  let bytes ← take 4
  pure (UInt32.ofNat (Bytes.ofBigEndian bytes))

def wide : Read UInt64 := do
  let bytes ← take 8
  pure (UInt64.ofNat (Bytes.ofBigEndian bytes))

/-- Reads a slot that may be absent. -/
def optionalSlot : Read (Option Slot) := do
  let slot ← word
  pure (if slot = noSlot then none else some slot)

/-- Reads `n` 32-bit operands in order. -/
def repeatWord : Nat → Read (List UInt32)
  | 0 => pure []
  | n + 1 => do
    let first ← word
    let others ← repeatWord n
    pure (first :: others)

def slots : Read (List Slot) := do
  let count ← word
  repeatWord count.toNat

end Reader

/-! ## Writing tails -/

def wordBytes (w : UInt32) : List UInt8 :=
  Bytes.bigEndian 4 w.toNat

def wideBytes (w : UInt64) : List UInt8 :=
  Bytes.bigEndian 8 w.toNat

/-- The bytes of a slot that may be absent. -/
def optionalSlotBytes (slot : Option Slot) : List UInt8 :=
  wordBytes (slot.getD noSlot)

/-- The bytes of a counted list of slots. -/
def slotsBytes (slots : List Slot) : List UInt8 :=
  wordBytes (UInt32.ofNat slots.length) ++ slots.flatMap wordBytes

theorem length_wordBytes (w : UInt32) : (wordBytes w).length = 4 :=
  Bytes.length_bigEndian 4 _

theorem length_wideBytes (w : UInt64) : (wideBytes w).length = 8 :=
  Bytes.length_bigEndian 8 _

theorem length_optionalSlotBytes (slot : Option Slot) : (optionalSlotBytes slot).length = 4 :=
  length_wordBytes _

theorem length_slotsBytes (slots : List Slot) :
    (slotsBytes slots).length = 4 + 4 * slots.length := by
  have counted : (slots.flatMap wordBytes).length = 4 * slots.length := by
    induction slots with
    | nil => rfl
    | cons s slots ih =>
      rw [List.flatMap_cons, List.length_append, length_wordBytes, ih, List.length_cons]
      omega
  rw [slotsBytes, List.length_append, length_wordBytes, counted]

/-! ## What was written is read back -/

namespace Reader

/-- Reading goes on from where the first step stopped, unless that step failed. -/
theorem bind_apply {α β : Type} (x : Read α) (f : α → Read β) (r : Reader) :
    (x >>= f) r = match x r with
      | (.ok a, r') => f a r'
      | (.error e, r') => (.error e, r') := by
  show (x r >>= fun p => ExceptT.bindCont f p.1 p.2 : Id _) = _
  rcases x r with ⟨_ | _, r'⟩ <;> rfl

theorem take_append {n : Nat} {bytes : List UInt8} (h : bytes.length = n) (opcode : Opcode)
    (offset : Nat) (rest : List UInt8) :
    take n ⟨opcode, offset, bytes ++ rest⟩ = (.ok bytes, ⟨opcode, offset + n, rest⟩) := by
  have enough : n ≤ (bytes ++ rest).length := by simp [h]
  rw [take, if_pos enough, List.take_left' h, List.drop_left' h]

theorem word_wordBytes (opcode : Opcode) (offset : Nat) (w : UInt32) (rest : List UInt8) :
    word ⟨opcode, offset, wordBytes w ++ rest⟩ = (.ok w, ⟨opcode, offset + 4, rest⟩) := by
  have small : w.toNat < Bytes.capacity 4 := w.toNat_lt
  rw [word, bind_apply, take_append (length_wordBytes w)]
  show (Except.ok (UInt32.ofNat (Bytes.ofBigEndian (wordBytes w))), _) = _
  rw [wordBytes, Bytes.ofBigEndian_bigEndian, Nat.mod_eq_of_lt small, UInt32.ofNat_toNat]

theorem wide_wideBytes (opcode : Opcode) (offset : Nat) (w : UInt64) (rest : List UInt8) :
    wide ⟨opcode, offset, wideBytes w ++ rest⟩ = (.ok w, ⟨opcode, offset + 8, rest⟩) := by
  have small : w.toNat < Bytes.capacity 8 := w.toNat_lt
  rw [wide, bind_apply, take_append (length_wideBytes w)]
  show (Except.ok (UInt64.ofNat (Bytes.ofBigEndian (wideBytes w))), _) = _
  rw [wideBytes, Bytes.ofBigEndian_bigEndian, Nat.mod_eq_of_lt small, UInt64.ofNat_toNat]

theorem repeatWord_flatMap (opcode : Opcode) (ws : List UInt32) (offset : Nat)
    (rest : List UInt8) :
    repeatWord ws.length ⟨opcode, offset, ws.flatMap wordBytes ++ rest⟩
      = (.ok ws, ⟨opcode, offset + 4 * ws.length, rest⟩) := by
  induction ws generalizing offset with
  | nil => rfl
  | cons w ws ih =>
    rw [List.length_cons, List.flatMap_cons, List.append_assoc, repeatWord, bind_apply,
      word_wordBytes]
    show (repeatWord ws.length >>= fun others => pure (w :: others)) _ = _
    rw [bind_apply, ih]
    show (Except.ok (w :: ws), _) = _
    congr 2
    omega

theorem slots_slotsBytes {ws : List Slot} (h : ws.length < UInt32.size) (opcode : Opcode)
    (offset : Nat) (rest : List UInt8) :
    slots ⟨opcode, offset, slotsBytes ws ++ rest⟩
      = (.ok ws, ⟨opcode, offset + 4 + 4 * ws.length, rest⟩) := by
  rw [slots, slotsBytes, List.append_assoc, bind_apply, word_wordBytes]
  show repeatWord (UInt32.ofNat ws.length).toNat _ = _
  rw [UInt32.toNat_ofNat_of_lt' h, repeatWord_flatMap]

/-- A slot reads back as it was written, unless it has the number that stands for no slot. -/
theorem optionalSlot_optionalSlotBytes {slot : Option Slot} (h : slot ≠ some noSlot)
    (opcode : Opcode) (offset : Nat) (rest : List UInt8) :
    optionalSlot ⟨opcode, offset, optionalSlotBytes slot ++ rest⟩
      = (.ok slot, ⟨opcode, offset + 4, rest⟩) := by
  rw [optionalSlot, optionalSlotBytes, bind_apply, word_wordBytes]
  show (Except.ok (if slot.getD noSlot = noSlot then none else some (slot.getD noSlot)), _) = _
  cases slot with
  | none => rfl
  | some s =>
    have bound : s ≠ noSlot := fun same => h (congrArg some same)
    simp [bound]

end Reader

end ShaderLowering.Il
