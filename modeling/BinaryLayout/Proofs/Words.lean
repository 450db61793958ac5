import BinaryLayout.Proofs.Encoding.Number
import Mathlib.Data.Nat.Digits.Lemmas

/-!
# Numbers in machine words

A machine puts a number together by shifting bytes into a word of 64 bits, and it spreads the sign
of a shorter number by shifting it to the top of the word and back.  Numbers of up to eight bytes
fit, so no bit is lost on the way.

* Base 256.  `base256_eq_ofDigits` says that the bytes are the digits, and `base256_inj` that bytes
  of one length are told apart by their number.
* Bytes in a word.  `ByteOrder.word` shifts them in, and `ByteOrder.toNat_word` says what comes out.
* Signs.  `extendSign` shifts a number up and back, and `toInt_extendSign` says that this is two's
  complement.
-/

namespace BinaryLayout

/-! ## Base 256 -/

/-- The last byte is the digit of the ones. -/
theorem base256_eq_ofDigits (bytes : List UInt8) :
    base256 bytes = Nat.ofDigits 256 (bytes.reverse.map UInt8.toNat) := by
  induction bytes using List.reverseRecOn with
  | nil => rfl
  | append_singleton bytes b ih =>
    rw [base256_append_singleton, ih, List.reverse_append, List.reverse_singleton,
      List.singleton_append, List.map_cons, Nat.ofDigits_cons, Nat.add_comm]

/-- A byte is a digit in base 256. -/
theorem forall_mem_map_toNat (bytes : List UInt8) : ∀ d ∈ bytes.map UInt8.toNat, d < 256 := by
  intro d hd
  obtain ⟨b, _, rfl⟩ := List.mem_map.1 hd
  exact b.toNat_lt

theorem base256_lt (bytes : List UInt8) : base256 bytes < 256 ^ bytes.length := by
  have hlt := Nat.ofDigits_lt_base_pow_length (by decide) (forall_mem_map_toNat bytes.reverse)
  rwa [← base256_eq_ofDigits, List.length_map, List.length_reverse] at hlt

/-- Bytes of one length that stand for the same number are the same. -/
theorem base256_inj {bytes other : List UInt8} (hlength : bytes.length = other.length)
    (h : base256 bytes = base256 other) : bytes = other := by
  rw [base256_eq_ofDigits, base256_eq_ofDigits] at h
  have hdigits := Nat.ofDigits_inj_of_len_eq (by decide)
    (by rw [List.length_map, List.length_map, List.length_reverse, List.length_reverse, hlength])
    (forall_mem_map_toNat bytes.reverse) (forall_mem_map_toNat other.reverse) h
  exact List.reverse_injective (List.map_injective_iff.2 (fun _ _ => UInt8.toNat.inj) hdigits)

namespace ByteOrder

theorem value_lt (order : ByteOrder) (bytes : List UInt8) :
    order.value bytes < 256 ^ bytes.length := by
  cases order with
  | big => exact base256_lt bytes
  | little =>
    have hlt := base256_lt bytes.reverse
    rwa [List.length_reverse] at hlt

theorem value_inj (order : ByteOrder) {bytes other : List UInt8}
    (hlength : bytes.length = other.length) (h : order.value bytes = order.value other) :
    bytes = other := by
  cases order with
  | big => exact base256_inj hlength h
  | little =>
    have hreverse : bytes.reverse.length = other.reverse.length := by
      rw [List.length_reverse, List.length_reverse, hlength]
    exact List.reverse_injective (base256_inj hreverse h)

end ByteOrder

/-! ## Bytes in a word -/

/-- Shifts a byte into a word from the right. -/
def shiftIn (word : UInt64) (b : UInt8) : UInt64 := word <<< 8 ||| b.toUInt64

/-- The word that holds bytes in this order, the least significant one in its lowest bits. -/
def ByteOrder.word : ByteOrder → List UInt8 → UInt64
  | .big, bytes => bytes.foldl shiftIn 0
  | .little, bytes => bytes.reverse.foldl shiftIn 0

/-- Where the highest byte of the word is free, to shift in a byte is to append a digit. -/
theorem toNat_shiftIn {word : UInt64} (h : word.toNat < 2 ^ 56) (b : UInt8) :
    (shiftIn word b).toNat = 256 * word.toNat + b.toNat := by
  have hb : b.toNat < 2 ^ 8 := b.toNat_lt
  have hshift : (word <<< 8).toNat = word.toNat <<< 8 := by
    rw [UInt64.toNat_shiftLeft]
    show word.toNat <<< 8 % 2 ^ 64 = word.toNat <<< 8
    rw [Nat.shiftLeft_eq]
    omega
  rw [shiftIn, UInt64.toNat_or, hshift, UInt8.toNat_toUInt64, ← Nat.shiftLeft_add_eq_or_of_lt hb,
    Nat.shiftLeft_eq]
  omega

/-- Eight bytes fit into a word. -/
theorem toNat_foldl_shiftIn {bytes : List UInt8} (h : bytes.length ≤ 8) :
    (bytes.foldl shiftIn 0).toNat = base256 bytes := by
  induction bytes using List.reverseRecOn with
  | nil => rfl
  | append_singleton bytes b ih =>
    rw [List.length_append, List.length_singleton] at h
    have hword := ih (by omega)
    have hroom : base256 bytes < 256 ^ 7 :=
      Nat.lt_of_lt_of_le (base256_lt bytes) (Nat.pow_le_pow_right (by decide) (by omega))
    rw [List.foldl_append, List.foldl_cons, List.foldl_nil,
      toNat_shiftIn (by rw [hword]; exact hroom), hword, base256_append_singleton]

theorem ByteOrder.toNat_word (order : ByteOrder) {bytes : List UInt8} (h : bytes.length ≤ 8) :
    (order.word bytes).toNat = order.value bytes := by
  cases order with
  | big => exact toNat_foldl_shiftIn h
  | little => exact toNat_foldl_shiftIn (by rwa [List.length_reverse])

/-! ## Signs -/

/-- The integer that the lowest `width` bytes of a word hold: they are shifted to the top of the
word, where their first bit is its sign, and back. -/
def extendSign (width : Nat) (word : UInt64) : Int64 :=
  let room := 64 - 8 * width
  (word <<< UInt64.ofNat room).toInt64 >>> Int64.ofNat room

/-- A number that is shifted to the top of a word and back loses what the bit above it is worth, if
its first bit is set. -/
theorem toInt_sshiftRight_shiftLeft (room : Nat) {size : Nat}
    (hsize : size * 2 ^ room = 2 ^ 64) {x : BitVec 64} (hx : x.toNat < size) :
    ((x <<< room).sshiftRight room).toInt =
      if 2 * x.toNat < size then (x.toNat : Int) else (x.toNat : Int) - size := by
  have hpos : 0 < 2 ^ room := Nat.pow_pos (by decide)
  rw [BitVec.toInt_sshiftRight, BitVec.toInt_shiftLeft, Nat.shiftLeft_eq,
    Int.shiftRight_eq_div_pow]
  generalize x.toNat = n at hx
  have hfit : n * 2 ^ room < 2 ^ 64 := by
    rw [← hsize]
    exact Nat.mul_lt_mul_of_pos_right hx hpos
  have hback (m : Int) : m * (2 ^ room : Nat) / (2 ^ room : Nat) = m :=
    Int.mul_ediv_cancel m (by omega)
  have hmod : ((n * 2 ^ room : Nat) : Int) % (2 ^ 64 : Nat) = (n * 2 ^ room : Nat) :=
    Int.emod_eq_of_lt (Int.natCast_nonneg _) (Int.ofNat_lt.2 hfit)
  rw [Int.bmod_def, hmod]
  by_cases hsign : 2 * n < size
  · have hlow : 2 * (n * 2 ^ room) < 2 ^ 64 := by
      rw [← hsize, ← Nat.mul_assoc]
      exact Nat.mul_lt_mul_of_pos_right hsign hpos
    rw [if_pos hsign, if_pos (by omega), Int.natCast_mul, hback]
  · have hhigh : 2 ^ 64 ≤ 2 * (n * 2 ^ room) := by
      rw [← hsize, ← Nat.mul_assoc]
      exact Nat.mul_le_mul_right _ (Nat.le_of_not_lt hsign)
    rw [if_neg hsign, if_neg (by omega), ← hsize, Int.natCast_mul, Int.natCast_mul,
      ← Int.sub_mul, hback]

/-- To shift a number of one, two, four or eight bytes up and back is to read it in two's
complement. -/
theorem toInt_extendSign {width : Nat} (hwidth : width ∈ [1, 2, 4, 8]) {word : UInt64}
    (h : word.toNat < 256 ^ width) :
    (extendSign width word).toInt =
      if 2 * word.toNat < 256 ^ width then (word.toNat : Int)
      else (word.toNat : Int) - (256 ^ width : Nat) := by
  simp only [List.mem_cons, List.not_mem_nil, or_false] at hwidth
  rcases hwidth with rfl | rfl | rfl | rfl
  · exact toInt_sshiftRight_shiftLeft 56 (by decide) h
  · exact toInt_sshiftRight_shiftLeft 48 (by decide) h
  · exact toInt_sshiftRight_shiftLeft 32 (by decide) h
  · exact toInt_sshiftRight_shiftLeft 0 (by decide) h

end BinaryLayout
