/-!
# Double-precision floating point

A double is kept as its 64 bits: a sign, an 11-bit exponent and a 52-bit fraction. All operations
here are integer arithmetic on those parts, so a value is never rounded except where
`Binary64.ofNat` says so: to the nearest double, a tie to the one with an even fraction.
-/

namespace BinaryLayout

/-- A double, given by its bits. -/
structure Binary64 where
  bits : UInt64
deriving DecidableEq, Repr

namespace Binary64

/-- The double with the given sign bit, exponent field and fraction. A fraction of `2 ^ 52`
carries into the exponent. -/
def ofParts (negative : Bool) (exponent fraction : Nat) : Binary64 :=
  ⟨UInt64.ofNat ((if negative then 1 <<< 63 else 0) + exponent <<< 52 + fraction)⟩

/-- Whether the sign bit is set. -/
def negative (x : Binary64) : Bool := 1 <<< 63 ≤ x.bits.toNat

/-- The exponent field. -/
def exponent (x : Binary64) : Nat := x.bits.toNat >>> 52 % 2048

/-- The fraction field. -/
def fraction (x : Binary64) : Nat := x.bits.toNat % (1 <<< 52)

/-- Whether the bits are those of a NaN. -/
def isNaN (x : Binary64) : Bool := x.exponent == 2047 && x.fraction != 0

/-- Whether the bits are those of an infinity. -/
def isInfinite (x : Binary64) : Bool := x.exponent == 2047 && x.fraction == 0

/-- Whether the value is zero, of either sign. -/
def isZero (x : Binary64) : Bool := x.exponent == 0 && x.fraction == 0

/-- The quiet NaN that stands for a number which could not be read. -/
def nan : Binary64 := ⟨0x7FF8000000000000⟩

/-- Equality of the numbers: the two zeros are equal, and a NaN equals nothing. -/
def numEq (x y : Binary64) : Bool :=
  !x.isNaN && !y.isNaN && (x.bits == y.bits || x.isZero && y.isZero)

/-- `n / 2 ^ shift` rounded to the nearest integer, a tie to the even one. -/
def roundShift (n shift : Nat) : Nat :=
  let quotient := n >>> shift
  let rest := n % (1 <<< shift)
  if 2 * rest < 1 <<< shift then quotient
  else if 1 <<< shift < 2 * rest then quotient + 1
  else quotient + quotient % 2

/-- The double nearest to `n`, negated if asked. Numbers of up to 53 bits are kept exactly. -/
def ofNat (negative : Bool) (n : Nat) : Binary64 :=
  if n = 0 then ofParts negative 0 0
  else
    let top := Nat.log2 n
    let significand := if top ≤ 52 then n <<< (52 - top) else roundShift n (top - 52)
    ofParts negative (top + 1023) (significand - 1 <<< 52)

/-- The double equal to the single-precision number with the given bits. A NaN stays one. -/
def ofBinary32 (bits : Nat) : Binary64 :=
  let negative := decide (1 <<< 31 ≤ bits)
  let exponent := bits >>> 23 % 256
  let fraction := bits % (1 <<< 23)
  if exponent = 255 then
    ofParts negative 2047 (if fraction = 0 then 0 else 1 <<< 51 + (fraction % (1 <<< 22)) <<< 29)
  else if exponent = 0 then
    if fraction = 0 then ofParts negative 0 0
    else
      -- A subnormal single is `fraction · 2 ^ -149`, which is a normal double.
      let top := Nat.log2 fraction
      ofParts negative (top + 874) (fraction <<< (52 - top) - 1 <<< 52)
  else
    ofParts negative (exponent + 896) (fraction <<< 29)

end Binary64

end BinaryLayout
