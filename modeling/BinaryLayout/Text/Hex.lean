/-!
# Hexadecimal text

Bytes are written with two lowercase digits each, in either order of the two halves
(`Hex.write`), and read from digits of either case (`Hex.read`). Reading says how the digits are
wrong: an odd number of them, or the first byte that is no digit.
-/

namespace BinaryLayout.Hex

/-- Which half of a byte is written first. -/
inductive Nibble where
  | high
  | low
deriving DecidableEq, Repr

/-- The two digits of a byte. -/
def digitsOf (first : Nibble) (b : UInt8) : List Char :=
  let high := Nat.digitChar (b.toNat / 16)
  let low := Nat.digitChar (b.toNat % 16)
  match first with
  | .high => [high, low]
  | .low => [low, high]

/-- The digits of all bytes in turn. -/
def write (first : Nibble) (bytes : List UInt8) : List Char :=
  bytes.flatMap (digitsOf first)

/-- The value of an ASCII byte that is a digit. -/
def value? (b : UInt8) : Option Nat :=
  if '0'.toUInt8 ≤ b ∧ b ≤ '9'.toUInt8 then some (b.toNat - '0'.toNat)
  else if 'a'.toUInt8 ≤ b ∧ b ≤ 'f'.toUInt8 then some (b.toNat - 'a'.toNat + 10)
  else if 'A'.toUInt8 ≤ b ∧ b ≤ 'F'.toUInt8 then some (b.toNat - 'A'.toNat + 10)
  else none

/-- Why digits stand for no bytes. -/
inductive Error where
  /-- The number of digits is odd. -/
  | oddLength (count : Nat)
  /-- The byte at this index is no digit. -/
  | notDigit (byte : UInt8) (index : Nat)
deriving DecidableEq, Repr

/-- Reads pairs of digits, the first of which has index `i`, and appends their bytes. -/
def readPairs (bytes : Array UInt8) (i : Nat) : List UInt8 → Except Error (Array UInt8)
  | a :: b :: rest =>
    match value? a, value? b with
    | some high, some low => readPairs (bytes.push (UInt8.ofNat (16 * high + low))) (i + 2) rest
    | none, _ => .error (.notDigit a i)
    | some _, none => .error (.notDigit b (i + 1))
  | _ => .ok bytes

/-- The bytes that `digits` stand for, two digits each. -/
def read (digits : List UInt8) : Except Error (Array UInt8) :=
  if digits.length % 2 = 1 then .error (.oddLength digits.length) else readPairs #[] 0 digits

end BinaryLayout.Hex
