/-!
# The fewest decimal digits that identify a binary number

`Decimal.shortest` selects, among the decimals that round to a given binary value, those with the
fewest digits and of these the one nearest to the value. All comparisons are exact, between
natural numbers.

A grid is the set of multiples of a power of ten. The search goes from the grid of the leading
digit to finer ones and tests on each the two neighbours of the value.
-/

namespace BinaryLayout

/-- The decimal `digits · 10 ^ exponent`. -/
structure Decimal where
  digits : Nat
  exponent : Int
deriving DecidableEq, Repr

/-- The power of ten with this exponent. -/
def Decimal.powerOfTen (exponent : Nat) : Nat := Nat.pow 10 exponent

/-- The positive value `significand · 2 ^ exponent`. `narrowBelow` tells that the next value below
is only half as far away as the next one above. -/
structure Dyadic where
  significand : Nat
  exponent : Int
  narrowBelow : Bool
deriving DecidableEq, Repr

namespace Dyadic

/-- With `unit`, the fraction `significand * scale / unit` is the value divided by `10 ^ grid`. -/
def scale (x : Dyadic) (grid : Int) : Nat := Decimal.powerOfTen (-grid).toNat <<< x.exponent.toNat

/-- The denominator that belongs to `scale`. -/
def unit (x : Dyadic) (grid : Int) : Nat := Decimal.powerOfTen grid.toNat <<< (-x.exponent).toNat

/-- Whether `digits · 10 ^ grid` lies among the reals that round to the value: between the halfway
points to its neighbours, which belong to it when its significand is even. -/
def covers (x : Dyadic) (grid : Int) (digits : Nat) : Bool :=
  let point := 4 * digits * x.unit grid
  let low := (4 * x.significand - if x.narrowBelow then 1 else 2) * x.scale grid
  let high := (4 * x.significand + 2) * x.scale grid
  if x.significand % 2 = 0 then low ≤ point && point ≤ high else low < point && point < high

/-- The neighbour of the value on the grid that rounds to it, the nearer one if both do, and the
even one if both are equally near. -/
def onGrid? (x : Dyadic) (grid : Int) : Option Nat :=
  let value := x.significand * x.scale grid
  let below := value / x.unit grid
  match x.covers grid below, x.covers grid (below + 1) with
  | false, false => none
  | true, false => some below
  | false, true => some (below + 1)
  | true, true =>
    let middle := (2 * below + 1) * x.unit grid
    if 2 * value < middle then some below
    else if middle < 2 * value then some (below + 1)
    else some (below + below % 2)

/-- Whether the value is less than `10 ^ power`. -/
def isBelow (x : Dyadic) (power : Int) : Bool := x.significand * x.scale power < x.unit power

/-- The exponent of the leading decimal digit. It is found among the few that the binary
magnitude leaves open: 1233 / 4096 is just under the decimal logarithm of two. -/
def leadingExponent (x : Dyadic) : Int :=
  let magnitude := (Nat.log2 x.significand : Int) + x.exponent
  let guess := (magnitude * 1233).fdiv 4096 - 2
  match (List.range 5).find? fun (i : Nat) => x.isBelow (guess + i + 1) with
  | some i => guess + i
  | none => guess + 5

/-- The value itself, written out. -/
def exactDecimal (x : Dyadic) : Decimal :=
  ⟨(x.significand <<< x.exponent.toNat) * Nat.pow 5 (-x.exponent).toNat, min x.exponent 0⟩

end Dyadic

namespace Decimal

/-- The same number without trailing zeros. -/
def trim (digits : Nat) (exponent : Int) : Decimal :=
  if digits = 0 ∨ digits % 10 ≠ 0 then ⟨digits, exponent⟩
  else trim (digits / 10) (exponent + 1)
termination_by digits
decreasing_by omega

/-- The nearest of the shortest decimals that round to `x`. Seventeen digits always suffice; the
exact value stands behind them. -/
def shortest (x : Dyadic) : Decimal :=
  let lead := x.leadingExponent
  let found := (List.range 17).findSome? fun (i : Nat) =>
    (x.onGrid? (lead - i)).map fun digits => (⟨digits, lead - i⟩ : Decimal)
  let decimal := found.getD x.exactDecimal
  trim decimal.digits decimal.exponent

end Decimal

end BinaryLayout
