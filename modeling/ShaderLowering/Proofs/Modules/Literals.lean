import ShaderLowering.Layout.IdPositions
import ShaderLowering.Spirv.Literal

/-!
# Where a literal string ends

The layout takes the first word with a zero byte for the end of the name of an entry point.  That is
where the literal string of the name ends if the name itself is without the zero character
(`interfaceStart_literalString`).  A name with the zero character would end sooner, and words of the
name would be taken for ids.
-/

namespace ShaderLowering.Spirv

/-- A text does not hold the character that ends literal strings. -/
def NulFree (s : String) : Prop :=
  '\x00' ∉ s.toList

instance (s : String) : Decidable (NulFree s) :=
  inferInstanceAs (Decidable (¬_))

/-- Only the zero character is written with a zero byte. -/
theorem eq_nul_of_zero_mem {c : Char} (h : 0 ∈ String.utf8EncodeChar c) : c = '\x00' := by
  have hrange : c.val.toNat < 1114112 := by
    rcases c.valid with hlow | ⟨-, hhigh⟩
    · exact Nat.lt_trans hlow (by decide)
    · exact hhigh
  -- A byte is the low part of a number, so it is zero for multiples of 256 only.
  have hzero : ∀ n : Nat, (0 : UInt8) = UInt8.ofNat n → n % 256 = 0 := by
    intro n hn
    have hnat := congrArg UInt8.toNat hn
    rw [UInt8.toNat_ofNat'] at hnat
    exact hnat.symm
  have hvalue : c.val.toNat = 0 := by
    unfold String.utf8EncodeChar at h
    dsimp only at h
    -- In longer encodings every byte has a high bit set, which the bound on the character leaves there.
    generalize c.val.toNat = v at h hrange
    split at h
    · have hv := hzero v (List.mem_singleton.mp h)
      omega
    · exfalso
      split at h
      · simp only [List.mem_cons, List.not_mem_nil, or_false] at h
        rcases h with h | h <;> have hv := hzero _ h <;> omega
      · split at h
        · simp only [List.mem_cons, List.not_mem_nil, or_false] at h
          rcases h with h | h | h <;> have hv := hzero _ h <;> omega
        · simp only [List.mem_cons, List.not_mem_nil, or_false] at h
          rcases h with h | h | h | h <;> have hv := hzero _ h <;> omega
  exact Char.ext (UInt32.toNat_inj.mp hvalue)

/-- A text without the zero character is written without a zero byte. -/
theorem NulFree.zero_not_mem {s : String} (h : NulFree s) : 0 ∉ s.toUTF8.data.toList := by
  have hbytes : s.toUTF8.data.toList = s.toList.flatMap String.utf8EncodeChar := by
    have hencode : s.toList.utf8Encode = s.toByteArray := String.utf8Encode_toList
    rw [String.toUTF8, ← hencode, List.utf8Encode, List.data_toByteArray, List.toList_toArray]
  rw [hbytes, List.mem_flatMap]
  rintro ⟨c, hc, hzero⟩
  rw [eq_nul_of_zero_mem hzero] at hc
  exact h hc

theorem hasZeroByte_toWord {bytes : List UInt8} (h : bytes.length = 4) :
    hasZeroByte (Bytes.toWord bytes) = bytes.any (· == 0) := by
  rw [hasZeroByte, Bytes.ofWord_toWord h]

/-- A word with room left is filled with zeros. -/
theorem ofWord_toWord_short {bytes : List UInt8} (h : bytes.length < 4) :
    Bytes.ofWord (Bytes.toWord bytes) = bytes ++ List.replicate (4 - bytes.length) 0 := by
  have hvalue : ∀ n (bs : List UInt8), Bytes.ofLittleEndian (bs ++ List.replicate n 0) =
      Bytes.ofLittleEndian bs := by
    intro n bs
    induction bs with
    | nil =>
      induction n with
      | zero => rfl
      | succ n ih =>
        rw [List.nil_append] at ih ⊢
        simp [List.replicate_succ, Bytes.ofLittleEndian, ih]
    | cons b bs ih => rw [List.cons_append, Bytes.ofLittleEndian, Bytes.ofLittleEndian, ih]
  have hfilled : Bytes.toWord bytes = Bytes.toWord (bytes ++ List.replicate (4 - bytes.length) 0) := by
    rw [Bytes.toWord, Bytes.toWord, hvalue]
  rw [hfilled, Bytes.ofWord_toWord]
  rw [List.length_append, List.length_replicate]
  omega

theorem hasZeroByte_short {bytes : List UInt8} (h : bytes.length < 4) :
    hasZeroByte (Bytes.toWord bytes) = true := by
  have hroom : 4 - bytes.length ≠ 0 := by omega
  rw [hasZeroByte, ofWord_toWord_short h, List.any_append]
  simp [hroom]

/-- Bytes that do not fill a word are fewer than four. -/
theorem length_lt_of_short {bytes : List UInt8}
    (hshort : ∀ a b c d rest, bytes = a :: b :: c :: d :: rest → False) : bytes.length < 4 := by
  rcases bytes with _ | ⟨a, _ | ⟨b, _ | ⟨c, _ | ⟨d, rest⟩⟩⟩⟩
  · decide
  · exact (by decide : 1 < 4)
  · exact (by decide : 2 < 4)
  · exact (by decide : 3 < 4)
  · exact (hshort a b c d rest rfl).elim

theorem length_literalBytes_pos (bytes : List UInt8) : 0 < (literalBytes bytes).length := by
  fun_cases literalBytes bytes <;> exact Nat.succ_pos _

/-- In the words of bytes without zero the first word with a zero byte is the last one. -/
theorem findIdx?_literalBytes {bytes : List UInt8} (h : 0 ∉ bytes) (rest : List Word) :
    (literalBytes bytes ++ rest).findIdx? hasZeroByte = some ((literalBytes bytes).length - 1) := by
  fun_induction literalBytes bytes with
  | case1 a b c d bytes ih =>
    simp only [List.mem_cons, not_or] at h
    have hfull : hasZeroByte (Bytes.toWord [a, b, c, d]) = false := by
      rw [hasZeroByte_toWord rfl]
      simpa using ⟨Ne.symm h.1, Ne.symm h.2.1, Ne.symm h.2.2.1, Ne.symm h.2.2.2.1⟩
    rw [List.cons_append, List.findIdx?_cons, hfull, ih h.2.2.2.2, if_neg Bool.false_ne_true,
      Option.map_some, List.length_cons, Nat.sub_add_cancel (length_literalBytes_pos bytes),
      Nat.add_sub_cancel]
  | case2 bytes hshort =>
    rw [List.singleton_append, List.findIdx?_cons, hasZeroByte_short (length_lt_of_short hshort)]
    rfl

/-- The interface of an entry point begins where the literal string of its name ends. -/
theorem interfaceStart_literalString {s : String} (h : NulFree s) (model function : Word)
    (rest : List Word) :
    Instruction.interfaceStart (model :: function :: literalString s ++ rest) =
      2 + (literalString s).length := by
  have hpos : 0 < (literalString s).length := length_literalBytes_pos _
  have hfound : (literalString s ++ rest).findIdx? hasZeroByte = some ((literalString s).length - 1) :=
    findIdx?_literalBytes h.zero_not_mem rest
  rw [Instruction.interfaceStart, List.cons_append, List.cons_append, List.drop_succ_cons,
    List.drop_succ_cons, List.drop_zero, hfound]
  change (literalString s).length - 1 + 3 = _
  omega

end ShaderLowering.Spirv
