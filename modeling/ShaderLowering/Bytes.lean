/-!
# Fixed-width byte strings

Words travel in two byte orders: operand tails of the intermediate language are big-endian, words
of a finished module are little-endian.  Both are positional notation in base 256, so one recursion
serves every width: `littleEndian n v` writes the `n` lowest base-256 digits of `v`, lowest first,
and `ofLittleEndian` evaluates digits.  The big-endian forms read the same digits from the other
end.

Main statements: `ofLittleEndian_littleEndian` (a written number reads back modulo `capacity n`) and
`littleEndian_ofLittleEndian` (digits are recovered from their value), with the big-endian pair
derived from them.
-/

namespace ShaderLowering.Bytes

/-- How many numbers `n` base-256 digits tell apart. -/
def capacity : Nat → Nat
  | 0 => 1
  | n + 1 => 256 * capacity n

/-- The `n` lowest base-256 digits of a number, lowest first. -/
def littleEndian : Nat → Nat → List UInt8
  | 0, _ => []
  | n + 1, v => UInt8.ofNat v :: littleEndian n (v / 256)

/-- The number that base-256 digits denote, lowest digit first. -/
def ofLittleEndian : List UInt8 → Nat
  | [] => 0
  | b :: bs => b.toNat + 256 * ofLittleEndian bs

/-- The `n` lowest base-256 digits of a number, highest first. -/
def bigEndian (n v : Nat) : List UInt8 :=
  (littleEndian n v).reverse

/-- The number that base-256 digits denote, highest digit first. -/
def ofBigEndian (bs : List UInt8) : Nat :=
  ofLittleEndian bs.reverse

@[simp] theorem length_littleEndian (n v : Nat) : (littleEndian n v).length = n := by
  induction n generalizing v with
  | zero => rfl
  | succ n ih => simp [littleEndian, ih]

@[simp] theorem length_bigEndian (n v : Nat) : (bigEndian n v).length = n := by
  simp [bigEndian]

theorem ofLittleEndian_littleEndian (n v : Nat) :
    ofLittleEndian (littleEndian n v) = v % capacity n := by
  induction n generalizing v with
  | zero => simp [littleEndian, ofLittleEndian, capacity, Nat.mod_one]
  | succ n ih =>
    rw [littleEndian, ofLittleEndian, ih, capacity, Nat.mod_mul]
    simp [UInt8.toNat_ofNat']

theorem littleEndian_ofLittleEndian (bs : List UInt8) :
    littleEndian bs.length (ofLittleEndian bs) = bs := by
  induction bs with
  | nil => rfl
  | cons b bs ih =>
    have low : b.toNat < 256 := b.toNat_lt
    have high : (b.toNat + 256 * ofLittleEndian bs) / 256 = ofLittleEndian bs := by omega
    have digit : UInt8.ofNat (b.toNat + 256 * ofLittleEndian bs) = b := by
      apply UInt8.toNat_inj.mp
      simp
    rw [List.length_cons, littleEndian, ofLittleEndian, high, ih, digit]

theorem ofLittleEndian_lt (bs : List UInt8) : ofLittleEndian bs < capacity bs.length := by
  induction bs with
  | nil => exact Nat.one_pos
  | cons b bs ih =>
    have low : b.toNat < 256 := b.toNat_lt
    rw [ofLittleEndian, List.length_cons, capacity]
    omega

theorem ofBigEndian_bigEndian (n v : Nat) : ofBigEndian (bigEndian n v) = v % capacity n := by
  simp [ofBigEndian, bigEndian, ofLittleEndian_littleEndian]

theorem bigEndian_ofBigEndian (bs : List UInt8) :
    bigEndian bs.length (ofBigEndian bs) = bs := by
  have back := littleEndian_ofLittleEndian bs.reverse
  rw [List.length_reverse] at back
  rw [bigEndian, ofBigEndian, back, List.reverse_reverse]

def ofWord (w : UInt32) : List UInt8 :=
  littleEndian 4 w.toNat

def toWord (bs : List UInt8) : UInt32 :=
  UInt32.ofNat (ofLittleEndian bs)

@[simp] theorem length_ofWord (w : UInt32) : (ofWord w).length = 4 :=
  length_littleEndian 4 _

theorem toWord_ofWord (w : UInt32) : toWord (ofWord w) = w := by
  have bound : w.toNat < capacity 4 := w.toNat_lt
  rw [toWord, ofWord, ofLittleEndian_littleEndian, Nat.mod_eq_of_lt bound, UInt32.ofNat_toNat]

theorem ofWord_toWord {bs : List UInt8} (h : bs.length = 4) : ofWord (toWord bs) = bs := by
  have bound : ofLittleEndian bs < UInt32.size := by
    have below := ofLittleEndian_lt bs
    rw [h] at below
    exact below
  have back := littleEndian_ofLittleEndian bs
  rw [h] at back
  rw [ofWord, toWord, UInt32.toNat_ofNat_of_lt' bound, back]

/-- Little-endian words of a byte string; an incomplete last word is dropped. -/
def words : List UInt8 → List UInt32
  | a :: b :: c :: d :: rest => toWord [a, b, c, d] :: words rest
  | _ => []

/-- Words written out as little-endian bytes read back as the same words. -/
theorem words_flatMap_ofWord (ws : List UInt32) : words (ws.flatMap ofWord) = ws := by
  induction ws with
  | nil => rfl
  | cons w ws ih =>
    rw [List.flatMap_cons]
    have four := length_ofWord w
    match bytes : ofWord w, four with
    | [a, b, c, d], _ =>
      simp only [List.cons_append, List.nil_append, words, ih]
      rw [← bytes, toWord_ofWord]

end ShaderLowering.Bytes
