import BinaryLayout.NumberField
import Mathlib.Algebra.Group.Nat.Defs

/-!
# Reading back numbers

The bytes of a number are its digits in base 256, in the byte order of the field.

* Base 256.  `base256_reverse_digits256` and `ByteOrder.value_write` read back a number that has no
  more digits than are written.
* Integers and doubles.  `Number.pattern` is the number that is written for a decoded number, and
  `Signedness.number_pattern` undoes two's complement.
* Fields.  `NumberField.Fits` says which numbers a field can yield for bytes of its own width, and
  `NumberField.ofBytes_encode` reads them back.
-/

namespace BinaryLayout

/-! ## Base 256 -/

/-- The last `width` digits of a number in base 256, the least significant one first. -/
def digits256 : Nat → Nat → List UInt8
  | 0, _ => []
  | width + 1, n => UInt8.ofNat n :: digits256 width (n / 256)

@[simp] theorem length_digits256 (width n : Nat) : (digits256 width n).length = width := by
  induction width generalizing n with
  | zero => rfl
  | succ width ih => rw [digits256, List.length_cons, ih]

theorem base256_append_singleton (bytes : List UInt8) (b : UInt8) :
    base256 (bytes ++ [b]) = 256 * base256 bytes + b.toNat := by
  rw [base256, List.foldl_append]
  rfl

/-- A number that has no more digits than are written is read back. -/
theorem base256_reverse_digits256 {width n : Nat} (h : n < 256 ^ width) :
    base256 (digits256 width n).reverse = n := by
  induction width generalizing n with
  | zero =>
    rw [Nat.pow_zero, Nat.lt_one_iff] at h
    exact h.symm
  | succ width ih =>
    have hrest : n / 256 < 256 ^ width := Nat.div_lt_of_lt_mul (by rwa [← Nat.pow_succ'])
    have hbyte : (UInt8.ofNat n).toNat = n % 256 := UInt8.toNat_ofNat'
    rw [digits256, List.reverse_cons, base256_append_singleton, ih hrest, hbyte]
    exact Nat.div_add_mod n 256

namespace ByteOrder

/-- A number in base 256 in this order of its digits. -/
def write : ByteOrder → Nat → Nat → List UInt8
  | .big, width, n => (digits256 width n).reverse
  | .little, width, n => digits256 width n

@[simp] theorem length_write (order : ByteOrder) (width n : Nat) :
    (order.write width n).length = width := by
  cases order with
  | big => rw [write, List.length_reverse, length_digits256]
  | little => rw [write, length_digits256]

theorem value_write (order : ByteOrder) {width n : Nat} (h : n < 256 ^ width) :
    order.value (order.write width n) = n := by
  cases order with
  | big => exact base256_reverse_digits256 h
  | little => exact base256_reverse_digits256 h

end ByteOrder

/-! ## Integers and doubles -/

/-- The number that stands for a decoded number in a field of `width` bytes: negative integers are
in two's complement, and a double is its bits. -/
def Number.pattern (width : Nat) : Number → Nat
  | .unsigned n => n.toNat
  | .signed n => (n.toInt % (256 ^ width : Nat)).toNat
  | .float x => x.bits.toNat

namespace Signedness

/-- Whether a number is an integer of this signedness and in the range of `width` bytes. -/
def Fits (width : Nat) : Signedness → Number → Prop
  | .unsigned, .unsigned n => n.toNat < 256 ^ width
  | .signed, .signed n => -(256 ^ width : Nat) ≤ 2 * n.toInt ∧ 2 * n.toInt < (256 ^ width : Nat)
  | _, _ => False

variable {sign : Signedness} {width : Nat} {n : Number}

theorem pattern_lt (h : sign.Fits width n) : n.pattern width < 256 ^ width := by
  match sign, n, h with
  | .unsigned, .unsigned n, h => exact h
  | .signed, .signed n, h =>
    have hpos : (0 : Int) < (256 ^ width : Nat) := Int.natCast_pos.2 (Nat.pow_pos (by decide))
    have hlow := Int.emod_nonneg n.toInt (Int.ne_of_gt hpos)
    have hhigh := Int.emod_lt_of_pos n.toInt hpos
    rw [Number.pattern]
    omega

/-- Two's complement is undone. -/
theorem toInt_of_pattern {x : Int} {size : Nat} (hlow : -(size : Int) ≤ 2 * x)
    (hhigh : 2 * x < size) :
    (if 2 * (x % size).toNat < size then ((x % size).toNat : Int)
      else ((x % size).toNat : Int) - size) = x := by
  rcases Int.lt_or_le x 0 with hneg | hnonneg
  · have hmod : x % size = x + size := by
      rw [← Int.add_emod_right, Int.emod_eq_of_lt (by omega) (by omega)]
    rw [hmod, if_neg (by omega)]
    omega
  · have hmod : x % size = x := Int.emod_eq_of_lt hnonneg (by omega)
    rw [hmod, if_pos (by omega)]
    omega

/-- An integer in range is read back from its pattern. -/
theorem number_pattern (h : sign.Fits width n) : sign.number width (n.pattern width) = n := by
  match sign, n, h with
  | .unsigned, .unsigned n, _ => rw [number, Number.pattern, UInt64.ofNat_toNat]
  | .signed, .signed n, h =>
    have hsize : 1 <<< (8 * width) = 256 ^ width := by
      rw [Nat.one_shiftLeft, Nat.pow_mul]
    rw [number, hsize, Number.pattern, toInt_of_pattern h.1 h.2, Int64.ofInt_toInt]

end Signedness

/-! ## Fields -/

namespace NumberField

/-- The byte order; for a single byte either one is the same. -/
def order : NumberField → ByteOrder
  | .byte _ => .big
  | .word _ _ order => order
  | .real _ order => order

/-- Whether a number can be what the field reads: an integer in its range, or any double but a NaN.
Singles are not considered: not every double is one. -/
def Fits : NumberField → Number → Prop
  | .byte sign, n => sign.Fits 1 n
  | .word sign size _, n => sign.Fits size.bytes n
  | .real .double _, .float x => x.isNaN = false
  | .real _ _, _ => False

/-- The bytes that stand for a number. -/
def encode (field : NumberField) (n : Number) : List UInt8 :=
  field.order.write field.width (n.pattern field.width)

variable {field : NumberField} {n : Number}

@[simp] theorem length_encode : (field.encode n).length = field.width :=
  field.order.length_write _ _

/-- A number that fits is read back from its bytes. -/
theorem ofBytes_encode (h : field.Fits n) : field.ofBytes (field.encode n) = n := by
  match field, n, h with
  | .byte sign, n, h =>
    have hvalue := ByteOrder.value_write .big (Signedness.pattern_lt h)
    rw [ofBytes, encode]
    exact (congrArg _ hvalue).trans (Signedness.number_pattern h)
  | .word sign size order, n, h =>
    have hvalue := order.value_write (Signedness.pattern_lt h)
    rw [ofBytes, encode]
    exact (congrArg _ hvalue).trans (Signedness.number_pattern h)
  | .real .double order, .float x, _ =>
    have hvalue : order.value (order.write 8 x.bits.toNat) = x.bits.toNat :=
      order.value_write x.bits.toNat_lt
    have hbytes : encode (.real .double order) (.float x) = order.write 8 x.bits.toNat := rfl
    rw [ofBytes, hbytes, hvalue, UInt64.ofNat_toNat]

end NumberField

end BinaryLayout
