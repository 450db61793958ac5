import BinaryLayout.Mapping

/-!
# JSON values

Plain JSON data with its members in order. A number is kept as the text that stands for it, so
that nothing is lost between an integer and its digits.
-/

namespace BinaryLayout

/-- A JSON value. -/
inductive Json where
  | null
  | number (token : String)
  | string (s : String)
  | list (items : List Json)
  | object (members : Mapping Json)
deriving Repr

/-- The JSON number that stands for a natural number. -/
def Json.ofNat (n : Nat) : Json := .number (String.ofList (Nat.toDigits 10 n))

/-- The JSON number that stands for an integer. -/
def Json.ofInt (n : Int) : Json :=
  let digits := Nat.toDigits 10 n.natAbs
  .number (String.ofList (if n < 0 then '-' :: digits else digits))

end BinaryLayout
