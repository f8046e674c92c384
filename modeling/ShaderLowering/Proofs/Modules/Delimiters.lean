import ShaderLowering.Proofs.Modules.Literals

/-!
# Literal strings delimit themselves

The bytes of a literal string are those of its text and then one to four zeros
(`flatMap_ofWord_literalBytes`).  If the text is without the zero character then all words but the last are
without a zero byte (`hasZeroByte_of_mem_dropLast`), so a reader that stops at the first word with one finds
the text again, whatever follows (`readLiteral_append`).

Hence the literal string of such a text never begins that of another one (`eq_of_prefix_literalString`).
-/

namespace ShaderLowering.Spirv

/-! ## Bytes and words of a literal string -/

/-- The bytes of a literal string are closed by at least one zero and fill the last word. -/
theorem flatMap_ofWord_literalBytes (bytes : List UInt8) :
    (literalBytes bytes).flatMap Bytes.ofWord =
      bytes ++ List.replicate (4 - bytes.length % 4) 0 := by
  fun_induction literalBytes bytes with
  | case1 a b c d bytes ih =>
    have hlength : (a :: b :: c :: d :: bytes).length % 4 = bytes.length % 4 := by
      simp only [List.length_cons]
      omega
    rw [List.flatMap_cons, Bytes.ofWord_toWord rfl, ih, hlength]
    rfl
  | case2 bytes hshort =>
    have hlt : bytes.length < 4 := length_lt_of_short hshort
    rw [List.flatMap_singleton, ofWord_toWord_short hlt, Nat.mod_eq_of_lt hlt]

theorem length_literalBytes (bytes : List UInt8) :
    4 * (literalBytes bytes).length = bytes.length + (4 - bytes.length % 4) := by
  fun_induction literalBytes bytes with
  | case1 a b c d bytes ih =>
    simp only [List.length_cons]
    omega
  | case2 bytes hshort =>
    have hlt : bytes.length < 4 := length_lt_of_short hshort
    rw [List.length_singleton]
    omega

/-- Where the bytes are without zero, only the last word is closed by one. -/
theorem hasZeroByte_of_mem_dropLast {bytes : List UInt8} (h : 0 ∉ bytes) {w : Word}
    (hw : w ∈ (literalBytes bytes).dropLast) : hasZeroByte w = false := by
  obtain ⟨i, hi, rfl⟩ := List.getElem_of_mem hw
  have hfound := findIdx?_literalBytes h []
  rw [List.append_nil, List.findIdx?_eq_some_iff_getElem] at hfound
  obtain ⟨_, _, hbefore⟩ := hfound
  rw [List.length_dropLast] at hi
  rw [List.getElem_dropLast]
  exact eq_false_of_ne_true (hbefore i hi)

/-! ## Reading a literal string -/

theorem takeWhile_append_zeros {bytes : List UInt8} (h : 0 ∉ bytes) {zeros : Nat} (hzeros : 0 < zeros) :
    (bytes ++ List.replicate zeros 0).takeWhile (· != 0) = bytes := by
  have hbytes : ∀ b ∈ bytes, (b != 0) = true := fun b hb =>
    bne_iff_ne.mpr fun hzero : b = 0 => h (hzero ▸ hb)
  obtain ⟨n, rfl⟩ := Nat.exists_eq_succ_of_ne_zero (Nat.ne_of_gt hzeros)
  rw [List.takeWhile_append_of_pos hbytes, List.replicate_succ, List.takeWhile_cons_of_neg (by decide),
    List.append_nil]

/-- Reads a text up to the first word with a zero byte, and answers it with the words that follow.  There
is none where no word has a zero byte, or where the bytes before that zero are no text. -/
def readLiteral (ws : List Word) : Option (String × List Word) := do
  let last ← ws.findIdx? hasZeroByte
  let bytes := ((ws.take (last + 1)).flatMap Bytes.ofWord).takeWhile (· != 0)
  let s ← String.fromUTF8? ⟨bytes.toArray⟩
  return (s, ws.drop (last + 1))

/-- A text without the zero character is read back, and what follows its literal string is left. -/
theorem readLiteral_append {s : String} (h : NulFree s) (rest : List Word) :
    readLiteral (literalString s ++ rest) = some (s, rest) := by
  have hlast : (literalString s).length - 1 + 1 = (literalString s).length :=
    Nat.sub_add_cancel (length_literalBytes_pos _)
  have hfound : (literalString s ++ rest).findIdx? hasZeroByte = some ((literalString s).length - 1) :=
    findIdx?_literalBytes h.zero_not_mem rest
  have hbytes : ((literalString s).flatMap Bytes.ofWord).takeWhile (· != 0) = s.toUTF8.data.toList := by
    rw [literalString, flatMap_ofWord_literalBytes]
    exact takeWhile_append_zeros h.zero_not_mem (by omega)
  have htext : String.fromUTF8? ⟨s.toUTF8.data.toList.toArray⟩ = some s := dif_pos s.isValidUTF8
  rw [readLiteral, hfound, Option.bind_eq_bind, Option.bind_some, hlast, List.take_left,
    List.drop_left]
  dsimp only
  rw [hbytes, htext]
  rfl

/-- No literal string begins another one, unless a text has the zero character. -/
theorem eq_of_prefix_literalString {s t : String} (hs : NulFree s) (ht : NulFree t)
    (h : literalString s <+: literalString t) : s = t := by
  obtain ⟨rest, hrest⟩ := h
  have hread := readLiteral_append ht []
  rw [List.append_nil, ← hrest, readLiteral_append hs rest] at hread
  exact congrArg Prod.fst (Option.some.inj hread)

/-- The bytes of a literal string are those of its text and one to four zeros, which fill its last word.
If the text is without the zero character then that word is the only one with a zero byte; after any two
words and before any others the layout finds the end of the literal there, and a reader finds the text and
what follows it; and of the literal strings of two such texts neither begins the other. -/
theorem literalString_delimited (s : String) :
    (∃ zeros, 1 ≤ zeros ∧ zeros ≤ 4 ∧ 4 * (literalString s).length = s.utf8ByteSize + zeros ∧
      (literalString s).flatMap Bytes.ofWord = s.toUTF8.data.toList ++ List.replicate zeros 0) ∧
    (NulFree s →
      (∀ w ∈ (literalString s).dropLast, hasZeroByte w = false) ∧
      (∀ (first second : Word) (rest : List Word),
        ((first :: second :: literalString s ++ rest).drop 2).findIdx? hasZeroByte =
          some ((literalString s).length - 1) ∧
        Instruction.interfaceStart (first :: second :: literalString s ++ rest) =
          2 + (literalString s).length ∧
        readLiteral ((first :: second :: literalString s ++ rest).drop 2) = some (s, rest)) ∧
      ∀ t, NulFree t → s ≠ t →
        ¬literalString s <+: literalString t ∧ ¬literalString t <+: literalString s) := by
  refine ⟨⟨4 - s.utf8ByteSize % 4, by omega, by omega, length_literalBytes _,
    flatMap_ofWord_literalBytes _⟩, fun hs => ⟨?_, fun first second rest => ⟨?_, ?_, ?_⟩, ?_⟩⟩
  · exact fun w hw => hasZeroByte_of_mem_dropLast hs.zero_not_mem hw
  · exact findIdx?_literalBytes hs.zero_not_mem rest
  · exact interfaceStart_literalString hs first second rest
  · exact readLiteral_append hs rest
  · intro t ht hne
    exact ⟨fun h => hne (eq_of_prefix_literalString hs ht h),
      fun h => hne (eq_of_prefix_literalString ht hs h).symm⟩

/-- A text that fills its words and one that begins with it, and a text with characters of two, three and
four bytes. -/
theorem literals_delimited : NulFree "main" ∧ NulFree "mainé€😀" ∧
    literalString "main" = [0x6E69616D, 0] ∧
    (∃ zeros, zeros ≤ 4 ∧ (literalString "main").flatMap Bytes.ofWord =
      [0x6D, 0x61, 0x69, 0x6E] ++ List.replicate zeros 0) ∧
    Instruction.interfaceStart (4 :: 1 :: literalString "mainé€😀" ++ [7, 0]) = 6 ∧
    readLiteral ((4 :: 1 :: literalString "mainé€😀" ++ [7, 0]).drop 2) = some ("mainé€😀", [7, 0]) ∧
    ¬literalString "main" <+: literalString "mainé€😀" := by
  have hmain : NulFree "main" := by decide
  have hlong : NulFree "mainé€😀" := by decide
  have hlength : (literalString "mainé€😀").length = 4 := by decide +kernel
  obtain ⟨⟨zeros, -, hzeros, -, hbytes⟩, hdelimited⟩ := literalString_delimited "main"
  obtain ⟨-, hread, -⟩ := (literalString_delimited "mainé€😀").2 hlong
  obtain ⟨-, hstart, htext⟩ := hread 4 1 [7, 0]
  rw [hlength] at hstart
  refine ⟨hmain, hlong, by decide +kernel, ⟨zeros, hzeros, hbytes⟩, hstart, htext, ?_⟩
  exact ((hdelimited hmain).2.2 "mainé€😀" hlong (by decide)).1

end ShaderLowering.Spirv
