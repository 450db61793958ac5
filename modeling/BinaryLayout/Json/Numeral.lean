import BinaryLayout.Binary64
import BinaryLayout.Decimal.Shortest
import BinaryLayout.Json.Basic

/-!
# Floating point in JSON

A finite double is written with the fewest digits that identify it. The number is written out when
its leading digit stands between the fifth place after the point and the sixteenth before it, and
then always with a point; otherwise one digit stands before the point and a signed exponent
follows. NaN and the infinities have no JSON number and become null.
-/

namespace BinaryLayout

/-- The absolute value of a finite double as a binary number. -/
def Binary64.magnitude (x : Binary64) : Dyadic :=
  if x.exponent = 0 then ⟨x.fraction, -1074, false⟩
  else ⟨(1 <<< 52) + x.fraction, x.exponent - 1075, x.fraction == 0 && 1 < x.exponent⟩

namespace Decimal

/-- The least exponent of the leading digit at which a number is written out. -/
def plainFrom : Int := -5

/-- The greatest exponent of the leading digit at which a number is written out. -/
def plainTo : Int := 15

/-- Digits with a point after the first `whole` of them, filled up with zeros on either side. -/
def writePlain (digits : List Char) (whole : Int) : List Char :=
  if whole ≤ 0 then '0' :: '.' :: List.replicate (-whole).toNat '0' ++ digits
  else if digits.length ≤ whole.toNat then
    digits ++ List.replicate (whole.toNat - digits.length) '0' ++ ['.', '0']
  else digits.take whole.toNat ++ '.' :: digits.drop whole.toNat

/-- One digit before the point, the others after it, and the exponent of the first. -/
def writeScientific (digits : List Char) (exponent : Int) : List Char :=
  let point := if digits.length = 1 then digits else digits.take 1 ++ '.' :: digits.drop 1
  let sign := if exponent < 0 then '-' else '+'
  point ++ 'e' :: sign :: Nat.toDigits 10 exponent.natAbs

/-- The text of a positive decimal. -/
def write (d : Decimal) : List Char :=
  let digits := Nat.toDigits 10 d.digits
  let lead := d.exponent + digits.length - 1
  if plainFrom ≤ lead ∧ lead ≤ plainTo then writePlain digits (lead + 1)
  else writeScientific digits lead

end Decimal

/-- The text of a finite double. -/
def Binary64.write (x : Binary64) : List Char :=
  let digits := if x.isZero then ['0', '.', '0'] else (Decimal.shortest x.magnitude).write
  if x.negative then '-' :: digits else digits

/-- The JSON value of a double. -/
def Json.ofBinary64 (x : Binary64) : Json :=
  if x.isNaN || x.isInfinite then .null else .number (String.ofList x.write)

end BinaryLayout
