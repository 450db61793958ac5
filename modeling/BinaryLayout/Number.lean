import BinaryLayout.Binary64

/-!
# Decoded numbers

A number remembers how it was read: as an unsigned or a signed integer of up to 64 bits, or as
floating point.
-/

namespace BinaryLayout

/-- A decoded number. -/
inductive Number where
  | unsigned (n : UInt64)
  | signed (n : Int64)
  | float (x : Binary64)
deriving DecidableEq, Repr

namespace Number

/-- What a number field yields when the payload does not hold all of its bytes. -/
def overrun : Number := .float .nan

/-- Whether the number is a NaN, such as `overrun`. -/
def isNaN : Number → Bool
  | .float x => x.isNaN
  | _ => false

/-- The double nearest to the number. -/
def toBinary64 : Number → Binary64
  | .unsigned n => .ofNat false n.toNat
  | .signed n => .ofNat (decide (n < 0)) n.toInt.natAbs
  | .float x => x

/-- Equality of numbers read in the same way; floats compare as numbers. -/
def equal : Number → Number → Bool
  | .unsigned m, .unsigned n => m == n
  | .signed m, .signed n => m == n
  | .float x, .float y => x.numEq y
  | _, _ => false

end Number

end BinaryLayout
