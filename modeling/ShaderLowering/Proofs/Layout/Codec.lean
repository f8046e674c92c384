import Mathlib.Data.List.Basic
import ShaderLowering.Proofs.Layout.Streams
import ShaderLowering.Spirv.Module

/-!
# What splitting a stream accounts for

`decode` is the inverse of writing instructions one after another, as far as a stream can be split at all:
it answers with the one list of instructions that fit whose words begin the stream and after which the
stream is `Stuck` (`decode_eq_iff`).  So nothing is passed over, joined or read past the end, and what is
left begins with a length that no instruction has there.

With the words of a module as little-endian bytes, this is the whole way from instructions to a module and
back (`streams_exact`).
-/

namespace ShaderLowering.Spirv

/-! ## Bytes of words -/

/-- A word is stored as its four bytes, the lowest first. -/
theorem ofWord_eq (w : Word) : Bytes.ofWord w =
    [w.toUInt8, (w >>> 8).toUInt8, (w >>> 16).toUInt8, (w >>> 24).toUInt8] := by
  have hbyte : ∀ (n : Nat) (v : Word), v.toNat = n → UInt8.ofNat n = v.toUInt8 := by
    rintro n v rfl
    rfl
  simp only [Bytes.ofWord, Bytes.littleEndian]
  rw [hbyte _ w rfl, hbyte _ (w >>> 8), hbyte _ (w >>> 16), hbyte _ (w >>> 24)]
  all_goals simp [UInt32.toNat_shiftRight, Nat.shiftRight_eq_div_pow, Nat.div_div_eq_div_mul]

namespace Instruction

/-! ## The end of a stream -/

/-- The number of words that the first word of an instruction tells. -/
def wordCount (first : Word) : Nat :=
  (first >>> 16).toNat

theorem wordCount_eq (first : Word) : wordCount first = first.toNat / UInt16.size := by
  simp [wordCount, UInt32.toNat_shiftRight, Nat.shiftRight_eq_div_pow, UInt16.size]

/-- No instruction can be split off a stream: it is at its end, or its first word tells a length that is
zero or larger than what is left. -/
def Stuck : List Word → Prop
  | [] => True
  | first :: rest => wordCount first = 0 ∨ (first :: rest).length < wordCount first

variable {is : List Instruction} {words rest : List Word}

theorem decode_eq_nil_of_stuck (h : Stuck rest) : decode rest = [] := by
  cases rest with
  | nil => rw [decode]
  | cons first rest =>
    simp only [Stuck, wordCount_eq, List.length_cons] at h
    rw [decode]
    exact if_pos h

/-- An instruction that a stream begins with has the words that it is split off from. -/
theorem encode_append_drop {first : Word} (hcount : wordCount first ≠ 0)
    (hwithin : wordCount first ≤ rest.length + 1) :
    encode ⟨UInt16.ofNat first.toNat, rest.take (wordCount first - 1)⟩ ++
      rest.drop (wordCount first - 1) = first :: rest := by
  have hlength : (rest.take (wordCount first - 1)).length + 1 = wordCount first := by
    rw [List.length_take]
    omega
  have hfirst : UInt32.ofNat (wordCount first * UInt16.size + (UInt16.ofNat first.toNat).toNat) = first := by
    apply UInt32.toNat_inj.mp
    have hlt : first.toNat < 4294967296 := first.toNat_lt
    have hsize : UInt16.size = 65536 := rfl
    rw [UInt32.toNat_ofNat', UInt16.toNat_ofNat', wordCount_eq, hsize]
    omega
  rw [encode, hlength, hfirst, List.cons_append, List.take_append_drop]

/-! ## Splitting and writing -/

/-- The instructions that a stream is split into are written as what the stream begins with, and no
instruction can be split off the rest. -/
theorem exists_stuck_rest (words : List Word) :
    ∃ rest, words = (decode words).flatMap encode ++ rest ∧ Stuck rest := by
  fun_induction decode words with
  | case1 => exact ⟨[], rfl, trivial⟩
  | case2 first rest count h =>
    refine ⟨first :: rest, rfl, ?_⟩
    rwa [Stuck, wordCount_eq, List.length_cons]
  | case3 first rest count h ih =>
    obtain ⟨last, hrest, hstuck⟩ := ih
    have hcount : count = wordCount first := (wordCount_eq first).symm
    clear_value count
    subst hcount
    rw [not_or, Nat.not_lt] at h
    refine ⟨last, ?_, hstuck⟩
    rw [List.flatMap_cons, List.append_assoc, ← hrest, encode_append_drop h.1 h.2]

/-- A stream is split into the instructions that fit whose words it begins with, up to where no
instruction can be split off. -/
theorem decode_eq_iff : decode words = is ↔
    (∀ i ∈ is, i.Fits) ∧ ∃ rest, words = is.flatMap encode ++ rest ∧ Stuck rest := by
  constructor
  · rintro rfl
    exact ⟨fun i hi => fits_of_mem_decode hi, exists_stuck_rest words⟩
  · rintro ⟨hfits, rest, rfl, hstuck⟩
    rw [decode_flatMap_encode_append hfits, decode_eq_nil_of_stuck hstuck, List.append_nil]

end Instruction

open Instruction (encode decode Stuck)

/-- Instructions with at most 65534 operands are read back from their words, whether they are written with
known opcodes or as they are.  The words of a module are read back from its bytes, four for a word and the
lowest first.  And any words at all are those of the instructions that they are split into, followed by
words that no instruction can be split off. -/
theorem streams_exact :
    (∀ is : List (Op × List Word), (∀ i ∈ is, i.2.length ≤ 65534) →
      decode (is.flatMap fun i => emit i.1 i.2) = is.map fun i => ⟨i.1.code, i.2⟩) ∧
    (∀ is : List Instruction, (∀ i ∈ is, i.operands.length ≤ 65534) →
      decode (is.flatMap encode) = is) ∧
    (∀ ws : List Word, (Module.ofWords ws).words = ws ∧ (Module.ofWords ws).code = ws.flatMap fun w : Word =>
      [w.toUInt8, (w >>> 8).toUInt8, (w >>> 16).toUInt8, (w >>> 24).toUInt8]) ∧
    ∀ ws : List Word, ∃ rest, ws = (decode ws).flatMap encode ++ rest ∧ Stuck rest := by
  have hread : ∀ is : List Instruction, (∀ i ∈ is, i.operands.length ≤ 65534) →
      decode (is.flatMap encode) = is := by
    intro is his
    refine Instruction.decode_eq_iff.mpr ⟨fun i hi => ?_, [], by rw [List.append_nil], trivial⟩
    have hle := his i hi
    -- A length of 65535 words still fits the sixteen bits.
    change i.operands.length + 1 < 65536
    omega
  refine ⟨fun is his => ?_, hread, fun ws => ⟨Module.words_ofWords ws, ?_⟩,
    Instruction.exists_stuck_rest⟩
  · have hemitted := hread (is.map fun i => ⟨i.1.code, i.2⟩) (List.forall_mem_map.mpr his)
    rwa [List.flatMap_map] at hemitted
  · exact congrArg (ws.flatMap ·) (funext ofWord_eq)

section Longest

/-- A struct type and the end of a function. -/
def structAndEnd : List (Op × List Word) :=
  [(.typeStruct, [7, 8]), (.functionEnd, [])]

/-- An instruction as long as they come, of an unknown opcode, and another one. -/
def longestAndNext : List Instruction :=
  [⟨0xFFFF, List.replicate 65534 7⟩, ⟨0, [9]⟩]

/-- Both are read back. -/
theorem longest_exact :
    (∀ i ∈ structAndEnd, i.2.length ≤ 65534) ∧
    decode (structAndEnd.flatMap fun i => emit i.1 i.2) =
      [⟨Op.typeStruct.code, [7, 8]⟩, ⟨Op.functionEnd.code, []⟩] ∧
    (∀ i ∈ longestAndNext, i.operands.length ≤ 65534) ∧
    decode (longestAndNext.flatMap encode) = longestAndNext := by
  have hshort : ∀ i ∈ structAndEnd, i.2.length ≤ 65534 := by decide
  have hlong : ∀ i ∈ longestAndNext, i.operands.length ≤ 65534 := by
    refine List.forall_mem_cons.mpr ⟨?_, by decide⟩
    exact Nat.le_of_eq List.length_replicate
  exact ⟨hshort, streams_exact.1 structAndEnd hshort, hlong, streams_exact.2.1 longestAndNext hlong⟩

end Longest

end ShaderLowering.Spirv
