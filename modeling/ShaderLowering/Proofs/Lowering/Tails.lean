import Mathlib.Algebra.GroupWithZero.Nat
import ShaderLowering.Assembly.Builder
import ShaderLowering.Lowering.Session

/-!
# Tails are read before anything else

How long a tail has to be follows from its opcode and, for a call, from the number of arguments that the
tail itself tells (`Opcode.required`).  A reader that `Walks` over operands of given widths reads them one
after another or stops at the first that does not fit, with a report that tells where (`Reader.Misfits`).
Walks are put together as reads are (`Walks.bind`), so there is one for each opcode
(`walks_operation`).

Conversely each string of bytes of the required length is the tail of an operation
(`encode_operation`), and what follows it is not looked at.

Hence an instruction with a short tail fails before it has done or asked for anything, and one with a long
tail does what it does with the tail that has the required length (`instruction_of_tail`).
-/

namespace ShaderLowering

namespace Il

/-! ## What a tail has to hold -/

/-- The number of arguments that the tail of a call tells, after its first two operands. -/
def argumentCount (tail : List UInt8) : Nat :=
  Bytes.ofBigEndian ((tail.drop 12).take 4)

namespace Opcode

/-- The widths of the operands that belong to an opcode, in the order of the wire. -/
def widths : Opcode → List UInt8 → List Nat
  | .call, tail => 4 :: 8 :: 4 :: List.replicate (argumentCount tail) 4
  | .ret, _ => []
  | .returnValue, _ => [4]
  | .load, _ | .loadUInt32, _ | .loadFloat32, _ => [4, 4]
  | .loadField, _ => [4, 8]
  | .storeField, _ => [8, 4]

/-- The number of bytes that a tail has to have. -/
def required : Opcode → List UInt8 → Nat
  | .call, tail => 16 + 4 * argumentCount tail
  | .ret, _ => 0
  | .returnValue, _ => 4
  | .load, _ | .loadUInt32, _ | .loadFloat32, _ => 8
  | .loadField, _ | .storeField, _ => 12

theorem sum_widths (opcode : Opcode) (tail : List UInt8) :
    (opcode.widths tail).sum = opcode.required tail := by
  cases opcode with
  | call =>
    simp only [widths, required, List.sum_cons, List.sum_replicate_nat]
    omega
  | _ => rfl

end Opcode

/-! ## Walks over a tail -/

namespace Reader

variable {α β : Type} {r : Reader} {ws ws' : List Nat} {t : Truncated}

/-- The reader some bytes further on. -/
def skip (r : Reader) (n : Nat) : Reader :=
  ⟨r.opcode, r.offset + n, r.rest.drop n⟩

/-- A report tells the first of some operands that does not fit into what is left: where it would stand,
how wide it is, and what there is instead. -/
def Misfits (r : Reader) (ws : List Nat) (t : Truncated) : Prop :=
  ∃ before width after, ws = before ++ width :: after ∧ before.sum ≤ r.rest.length ∧
    r.rest.length < before.sum + width ∧
    t = ⟨r.opcode, r.offset + before.sum, width, r.rest.length - before.sum⟩

theorem Misfits.append (h : r.Misfits ws t) (ws' : List Nat) : r.Misfits (ws ++ ws') t := by
  obtain ⟨before, width, after, rfl, hrest⟩ := h
  exact ⟨before, width, after ++ ws', by simp, hrest⟩

/-- What does not fit after some operands is the first that does not fit at all, if these fit. -/
theorem Misfits.of_skip (hfits : ws.sum ≤ r.rest.length) (h : (r.skip ws.sum).Misfits ws' t) :
    r.Misfits (ws ++ ws') t := by
  obtain ⟨before, width, after, rfl, hbefore, hwidth, rfl⟩ := h
  simp only [skip, List.length_drop] at hbefore hwidth ⊢
  refine ⟨ws ++ before, width, after, by simp, ?_, ?_, ?_⟩
  · rw [List.sum_append]
    omega
  · rw [List.sum_append]
    omega
  · rw [List.sum_append, Nat.add_assoc, Nat.sub_sub]

/-- There is less left than the operand of a report is wide. -/
theorem Misfits.available_lt (h : r.Misfits ws t) : t.available < t.needed := by
  obtain ⟨before, width, after, -, hbefore, hwidth, rfl⟩ := h
  change r.rest.length - before.sum < width
  omega

/-- From where a reader stands, operands of some widths are read one after another, or the first that does
not fit is reported. -/
structure Walks (r : Reader) (ws : List Nat) (read : Read α) : Prop where
  fits : ws.sum ≤ r.rest.length → ∃ x, read r = (.ok x, r.skip ws.sum)
  misfits : r.rest.length < ws.sum → ∃ t r', read r = (.error t, r') ∧ r.Misfits ws t

namespace Walks

theorem pure (r : Reader) (x : α) : r.Walks [] (Pure.pure x : Read α) where
  fits _ := ⟨x, by simp only [List.sum_nil, skip, Nat.add_zero, List.drop_zero]; rfl⟩
  misfits h := absurd h (Nat.not_lt_zero _)

theorem take (r : Reader) (n : Nat) : r.Walks [n] (Reader.take n) where
  fits h := by
    rw [List.sum_singleton] at h ⊢
    exact ⟨r.rest.take n, if_pos h⟩
  misfits h := by
    rw [List.sum_singleton] at h
    exact ⟨_, r, if_neg (Nat.not_le.mpr h), [], n, [], rfl, Nat.zero_le _, by simpa using h, rfl⟩

/-- One walk and then another, which may depend on what the first has read. -/
theorem bind {read : Read α} {next : α → Read β} (h : r.Walks ws read)
    (hnext : ∀ x, read r = (.ok x, r.skip ws.sum) → (r.skip ws.sum).Walks ws' (next x)) :
    r.Walks (ws ++ ws') (read >>= next) where
  fits hle := by
    rw [List.sum_append] at hle
    obtain ⟨x, hx⟩ := h.fits (by omega)
    obtain ⟨y, hy⟩ := (hnext x hx).fits (by simp only [skip, List.length_drop]; omega)
    refine ⟨y, ?_⟩
    rw [bind_apply, hx]
    refine hy.trans ?_
    simp only [skip, List.sum_append, List.drop_drop, Nat.add_assoc]
  misfits hlt := by
    rw [List.sum_append] at hlt
    -- Either the first walk comes to its end and the second misfits, or the first one does.
    by_cases hfits : ws.sum ≤ r.rest.length
    · obtain ⟨x, hx⟩ := h.fits hfits
      obtain ⟨t, r', ht, hmisfits⟩ := (hnext x hx).misfits (by
        simp only [skip, List.length_drop]
        omega)
      refine ⟨t, r', ?_, hmisfits.of_skip hfits⟩
      rw [bind_apply, hx]
      exact ht
    · obtain ⟨t, r', ht, hmisfits⟩ := h.misfits (Nat.not_le.mp hfits)
      refine ⟨t, r', ?_, hmisfits.append ws'⟩
      rw [bind_apply, ht]

/-- To make something of what has been read is no walk of its own. -/
theorem map {read : Read α} (h : r.Walks ws read) (f : α → β) :
    r.Walks ws (read >>= fun x => Pure.pure (f x)) := by
  have hbind := h.bind fun x _ => Walks.pure (r.skip ws.sum) (f x)
  rwa [List.append_nil] at hbind

theorem word (r : Reader) : r.Walks [4] Reader.word :=
  (take r 4).map _

theorem wide (r : Reader) : r.Walks [8] Reader.wide :=
  (take r 8).map _

theorem optionalSlot (r : Reader) : r.Walks [4] Reader.optionalSlot :=
  (word r).map _

theorem repeatWord (n : Nat) (r : Reader) : r.Walks (List.replicate n 4) (Reader.repeatWord n) := by
  induction n generalizing r with
  | zero => exact pure r []
  | succ n ih => exact (word r).bind fun w _ => (ih _).map _

end Walks

/-- A word that is read is the number that four bytes denote. -/
theorem toNat_of_word {w : UInt32} {r' : Reader} (h : word r = (.ok w, r')) :
    w.toNat = Bytes.ofBigEndian (r.rest.take 4) := by
  by_cases hfits : 4 ≤ r.rest.length
  · have htake : Reader.take 4 r = (.ok (r.rest.take 4), r.skip 4) := if_pos hfits
    rw [word, bind_apply, htake] at h
    obtain rfl := Except.ok.inj (Prod.mk.inj h).1
    have hlt := Bytes.ofLittleEndian_lt (r.rest.take 4).reverse
    rw [List.length_reverse, List.length_take, Nat.min_eq_left hfits] at hlt
    exact UInt32.toNat_ofNat_of_lt' hlt
  · have htake : Reader.take 4 r = (.error ⟨r.opcode, r.offset, 4, r.rest.length⟩, r) := if_neg hfits
    rw [word, bind_apply, htake] at h
    cases h

/-- A list of slots is as long as its count tells. -/
theorem Walks.slots (r : Reader) :
    r.Walks ([4] ++ List.replicate (Bytes.ofBigEndian (r.rest.take 4)) 4) Reader.slots :=
  (Walks.word r).bind fun w hw => by
    rw [← toNat_of_word hw]
    exact Walks.repeatWord _ _

/-- The operands of an operation are walked over in order. -/
theorem walks_operation (opcode : Opcode) (tail : List UInt8) :
    (start opcode tail).Walks (opcode.widths tail) (Operation.read opcode) := by
  cases opcode with
  | call =>
    refine (Walks.optionalSlot _).bind fun result _ => (Walks.wide _).bind fun callee _ => ?_
    have hslots := Walks.slots (((start .call tail).skip 4).skip 8)
    have hcount : (((start .call tail).skip 4).skip 8).rest = tail.drop 12 := List.drop_drop
    rw [hcount] at hslots
    exact hslots.map _
  | ret => exact Walks.pure _ _
  | returnValue => exact (Walks.optionalSlot _).map _
  | load | loadUInt32 | loadFloat32 => exact (Walks.word _).bind fun _ _ => (Walks.word _).map _
  | loadField => exact (Walks.word _).bind fun _ _ => (Walks.wide _).map _
  | storeField => exact (Walks.wide _).bind fun _ _ => (Walks.word _).map _

end Reader

/-! ## What a tail holds -/

section Operands

variable {tail : List UInt8} {place : Nat}

/-- The word at a place of a tail. -/
def wordAt (tail : List UInt8) (place : Nat) : UInt32 :=
  UInt32.ofNat (Bytes.ofBigEndian ((tail.drop place).take 4))

/-- The wide word at a place of a tail. -/
def wideAt (tail : List UInt8) (place : Nat) : UInt64 :=
  UInt64.ofNat (Bytes.ofBigEndian ((tail.drop place).take 8))

/-- The slot at a place of a tail, if there is one. -/
def slotAt (tail : List UInt8) (place : Nat) : Option Slot :=
  if wordAt tail place = noSlot then none else some (wordAt tail place)

/-- Bytes denote a number that can be told by as many bytes, and they are the bytes of that number. -/
theorem bigEndian_take {width : Nat} (h : place + width ≤ tail.length) :
    Bytes.ofBigEndian ((tail.drop place).take width) < Bytes.capacity width ∧
      Bytes.bigEndian width (Bytes.ofBigEndian ((tail.drop place).take width)) =
        (tail.drop place).take width := by
  have hlength : ((tail.drop place).take width).length = width := by
    rw [List.length_take, List.length_drop]
    omega
  have hlt := Bytes.ofLittleEndian_lt ((tail.drop place).take width).reverse
  have hback := Bytes.bigEndian_ofBigEndian ((tail.drop place).take width)
  rw [List.length_reverse, hlength] at hlt
  rw [hlength] at hback
  exact ⟨hlt, hback⟩

theorem toNat_wordAt (h : place + 4 ≤ tail.length) :
    (wordAt tail place).toNat = Bytes.ofBigEndian ((tail.drop place).take 4) :=
  UInt32.toNat_ofNat_of_lt' (bigEndian_take h).1

theorem wordBytes_wordAt (h : place + 4 ≤ tail.length) :
    wordBytes (wordAt tail place) = (tail.drop place).take 4 := by
  rw [wordBytes, toNat_wordAt h, (bigEndian_take h).2]

theorem wideBytes_wideAt (h : place + 8 ≤ tail.length) :
    wideBytes (wideAt tail place) = (tail.drop place).take 8 := by
  rw [wideBytes, wideAt, UInt64.toNat_ofNat_of_lt' (bigEndian_take h).1, (bigEndian_take h).2]

theorem slotAt_ne (tail : List UInt8) (place : Nat) : slotAt tail place ≠ some noSlot := by
  rw [slotAt]
  split
  · exact nofun
  · next hslot => exact fun heq => hslot (Option.some.inj heq)

theorem optionalSlotBytes_slotAt (h : place + 4 ≤ tail.length) :
    optionalSlotBytes (slotAt tail place) = (tail.drop place).take 4 := by
  rw [← wordBytes_wordAt h, optionalSlotBytes, slotAt]
  split
  · next hnone => rw [hnone, Option.getD_none]
  · rw [Option.getD_some]

theorem flatMap_wordBytes_wordAt {n : Nat} (h : place + 4 * n ≤ tail.length) :
    ((List.range n).map fun i => wordAt tail (place + 4 * i)).flatMap wordBytes =
      (tail.drop place).take (4 * n) := by
  induction n with
  | zero => simp
  | succ n ih =>
    have hlast : wordBytes (wordAt tail (place + 4 * n)) = (tail.drop (place + 4 * n)).take 4 :=
      wordBytes_wordAt (by omega)
    rw [List.range_succ, List.map_append, List.flatMap_append, ih (by omega), Nat.mul_succ, List.take_add,
      List.drop_drop]
    simp [hlast]

/-- The operation that a tail tells for an opcode. -/
def Opcode.operation : Opcode → List UInt8 → Operation
  | .call, tail => .call (slotAt tail 0) (wideAt tail 4)
      ((List.range (argumentCount tail)).map fun i => wordAt tail (16 + 4 * i))
  | .ret, _ => .ret
  | .returnValue, tail => .returnValue (slotAt tail 0)
  | .load, tail => .load (wordAt tail 0) (wordAt tail 4)
  | .loadField, tail => .loadField (wordAt tail 0) (wideAt tail 4)
  | .storeField, tail => .storeField (wideAt tail 0) (wordAt tail 8)
  | .loadUInt32, tail => .loadUInt32 (wordAt tail 0) (wordAt tail 4)
  | .loadFloat32, tail => .loadFloat32 (wordAt tail 0) (wordAt tail 4)

/-- A tail that is long enough begins with the operands of its operation. -/
theorem encode_operation {opcode : Opcode} (h : opcode.required tail ≤ tail.length) :
    (opcode.operation tail).Encodable ∧
      (opcode.operation tail).encode = ⟨opcode, tail.take (opcode.required tail)⟩ := by
  cases opcode with
  | call =>
    -- The count that is read is the count that the width of the tail goes by.
    have hle : 16 + 4 * argumentCount tail ≤ tail.length := h
    have hcount : (wordAt tail 12).toNat = argumentCount tail := toNat_wordAt (by omega)
    have hlt : argumentCount tail < UInt32.size := hcount ▸ (wordAt tail 12).toNat_lt
    have harguments : slotsBytes ((List.range (argumentCount tail)).map fun i => wordAt tail (16 + 4 * i)) =
        (tail.drop 12).take 4 ++ (tail.drop 16).take (4 * argumentCount tail) := by
      rw [slotsBytes, flatMap_wordBytes_wordAt hle, List.length_map, List.length_range, ← hcount,
        UInt32.ofNat_toNat, wordBytes_wordAt (by omega)]
    refine ⟨⟨slotAt_ne tail 0, by simpa using hlt⟩, congrArg (Instruction.mk .call) ?_⟩
    have hsplit : 16 + 4 * argumentCount tail = 4 + 8 + 4 + 4 * argumentCount tail := by omega
    rw [Opcode.operation, Operation.tail, Opcode.required, harguments,
      optionalSlotBytes_slotAt (by omega), wideBytes_wideAt (by omega), hsplit, List.take_add,
      List.take_add, List.take_add, List.drop_zero]
    simp only [List.append_assoc]
  | ret => exact ⟨trivial, rfl⟩
  | returnValue =>
    exact ⟨slotAt_ne tail 0, congrArg (Instruction.mk .returnValue) (optionalSlotBytes_slotAt h)⟩
  | load | loadUInt32 | loadFloat32 =>
    have hle : 8 ≤ tail.length := h
    refine ⟨trivial, congrArg (Instruction.mk _) ?_⟩
    rw [Opcode.operation, Operation.tail, wordBytes_wordAt (by omega), wordBytes_wordAt hle,
      List.drop_zero, ← List.take_add]
    rfl
  | loadField =>
    have hle : 12 ≤ tail.length := h
    refine ⟨trivial, congrArg (Instruction.mk _) ?_⟩
    rw [Opcode.operation, Operation.tail, wordBytes_wordAt (by omega), wideBytes_wideAt hle,
      List.drop_zero, ← List.take_add]
    rfl
  | storeField =>
    have hle : 12 ≤ tail.length := h
    refine ⟨trivial, congrArg (Instruction.mk _) ?_⟩
    rw [Opcode.operation, Operation.tail, wideBytes_wideAt (by omega), wordBytes_wordAt hle,
      List.drop_zero, ← List.take_add]
    rfl

/-- A tail that is long enough is read as its operation. -/
theorem decode_of_required_le {opcode : Opcode} (h : opcode.required tail ≤ tail.length) :
    (⟨opcode, tail⟩ : Instruction).decode = .ok (opcode.operation tail) := by
  obtain ⟨hencodable, hencode⟩ := encode_operation h
  obtain ⟨hopcode, htail⟩ := Instruction.mk.inj hencode
  have hread := Operation.read_tail_append hencodable (tail.drop (opcode.required tail))
  rw [hopcode, htail, List.take_append_drop] at hread
  exact congrArg Prod.fst hread

/-- What follows the operands of a tail is not looked at. -/
theorem decode_take_required {opcode : Opcode} (h : opcode.required tail ≤ tail.length) :
    (⟨opcode, tail.take (opcode.required tail)⟩ : Instruction).decode = .ok (opcode.operation tail) := by
  obtain ⟨hencodable, hencode⟩ := encode_operation h
  rw [← hencode, Instruction.decode_encode hencodable]

/-- A tail that is too short is reported at the first operand that does not fit. -/
theorem decode_of_lt_required {opcode : Opcode} (h : tail.length < opcode.required tail) :
    ∃ t, (⟨opcode, tail⟩ : Instruction).decode = .error t ∧
      (Reader.start opcode tail).Misfits (opcode.widths tail) t := by
  rw [← opcode.sum_widths tail] at h
  obtain ⟨t, r', hread, hmisfits⟩ := (Reader.walks_operation opcode tail).misfits h
  exact ⟨t, congrArg Prod.fst hread, hmisfits⟩

end Operands

end Il

/-! ## Instructions -/

open Construction (Task)

namespace BodyWriter

variable {a : Assembly} {m : MethodDef} {i : Il.Instruction}

theorem instruction_of_error {t : Il.Truncated} (h : i.decode = .error t) (draft : Draft) :
    (instruction a m i).run draft = Task.fail (I := lowering) (.malformedIl m.fullName t) := by
  rw [instruction, h]
  rfl

theorem instruction_of_ok {op : Il.Operation} (h : i.decode = .ok op) :
    instruction a m i = operation a m op := by
  rw [instruction, h]

end BodyWriter

/-- An instruction with a tail that is too short fails as malformed, wherever the translation of its method
stands and whatever else is wrong with it: it asks for nothing, writes nothing and leaves the session as it
is, and the report tells its opcode and the first operand that does not fit.  With a tail that is long
enough all operands are read, and the instruction is the operation that the required bytes tell, so it does
what it does without the others. -/
theorem instruction_of_tail (a : Assembly) (m : MethodDef) (opcode : Il.Opcode) (tail : List UInt8) :
    (tail.length < opcode.required tail → ∃ t : Il.Truncated,
      (Il.Reader.start opcode tail).Misfits (opcode.widths tail) t ∧ t.available < t.needed ∧
      (⟨opcode, tail⟩ : Il.Instruction).decode = .error t ∧
      ∀ draft : Draft,
        (BodyWriter.instruction a m ⟨opcode, tail⟩).run draft =
          Task.fail (I := lowering) (.malformedIl m.fullName t) ∧
        ∀ s : Session, s.run a ((BodyWriter.instruction a m ⟨opcode, tail⟩).run draft) =
          (.returned (.error (.fault (.malformedIl m.fullName t))), s)) ∧
    (opcode.required tail ≤ tail.length →
      (⟨opcode, tail⟩ : Il.Instruction).decode = .ok (opcode.operation tail) ∧
      BodyWriter.instruction a m ⟨opcode, tail⟩ = BodyWriter.operation a m (opcode.operation tail) ∧
      BodyWriter.instruction a m ⟨opcode, tail⟩ =
        BodyWriter.instruction a m ⟨opcode, tail.take (opcode.required tail)⟩) := by
  refine ⟨fun hshort => ?_, fun hlong => ?_⟩
  · obtain ⟨t, hdecode, hmisfits⟩ := Il.decode_of_lt_required hshort
    refine ⟨t, hmisfits, hmisfits.available_lt, hdecode, fun draft => ?_⟩
    have hfail := BodyWriter.instruction_of_error (a := a) (m := m) hdecode draft
    refine ⟨hfail, fun s => ?_⟩
    rw [hfail]
    -- The cut tail is long enough as well, and the operation looks no further.
    rfl
  · have hdecode := Il.decode_of_required_le hlong
    have hoperation := BodyWriter.instruction_of_ok (a := a) (m := m) hdecode
    have hcut := BodyWriter.instruction_of_ok (a := a) (m := m) (Il.decode_take_required hlong)
    exact ⟨hdecode, hoperation, hoperation.trans hcut.symm⟩

section Frayed

/-- A method without slots. -/
def frayed : MethodDef :=
  ⟨⟨0⟩, ⟨0⟩, "m", "T::m", none, [], [], [.static], .empty⟩

/-- The tail of a call of no method there is, which tells three arguments and ends in the second. -/
def frayedCall : List UInt8 :=
  [0, 0, 0, 1, 0xFF, 0xFF, 0xFF, 0xFF, 0xFF, 0xFF, 0xFF, 0xFF, 0, 0, 0, 3, 0, 0, 0, 9, 1]

/-- The call is malformed, whatever is wrong with its callee and its arguments; a load with bytes to spare
is the load without them. -/
theorem frayed_reported :
    frayedCall.length < Il.Opcode.call.required frayedCall ∧
    (Session.start).run (.empty "A")
        ((BodyWriter.instruction (.empty "A") frayed ⟨.call, frayedCall⟩).run Draft.empty) =
      (.returned (.error (.fault (.malformedIl "T::m" ⟨.call, 20, 4, 1⟩))), Session.start) ∧
    Il.Opcode.load.required [0, 0, 0, 1, 0, 0, 0, 2, 7] ≤ 9 ∧
    BodyWriter.instruction (.empty "A") frayed ⟨.load, [0, 0, 0, 1, 0, 0, 0, 2, 7]⟩ =
      BodyWriter.instruction (.empty "A") frayed ⟨.load, [0, 0, 0, 1, 0, 0, 0, 2]⟩ := by
  have hshort : frayedCall.length < Il.Opcode.call.required frayedCall := by decide
  have hdecode : (⟨.call, frayedCall⟩ : Il.Instruction).decode = .error ⟨.call, 20, 4, 1⟩ := by rfl
  obtain ⟨t, -, -, ht, hfails⟩ := (instruction_of_tail (.empty "A") frayed .call frayedCall).1 hshort
  obtain rfl := Except.error.inj (hdecode.symm.trans ht)
  have hlong : Il.Opcode.load.required [0, 0, 0, 1, 0, 0, 0, 2, 7] ≤ 9 := by decide
  exact ⟨hshort, (hfails Draft.empty).2 Session.start, hlong,
    ((instruction_of_tail (.empty "A") frayed .load [0, 0, 0, 1, 0, 0, 0, 2, 7]).2 hlong).2.2⟩

end Frayed

end ShaderLowering
