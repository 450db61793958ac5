import BinaryLayout.Position

/-!
# Payloads

The bytes being decoded, and the three ways a field looks at them: all of its bytes or none
(`Payload.take?`), those of its bytes that exist (`Payload.window`), and everything up to the
next zero byte (`Payload.segment`).
-/

namespace BinaryLayout

/-- The bytes being decoded. -/
abbrev Payload := Array UInt8

namespace Payload

/-- The `n` bytes from `p` on, if the payload holds every one of them. -/
def take? (bytes : Payload) (p : Position) (n : Nat) : Option (List UInt8) :=
  if 0 ≤ p ∧ p + n ≤ bytes.size then
    some (bytes.extract p.toNat (p.toNat + n)).toList
  else
    none

/-- Those of the `n` bytes from `p` on that the payload holds. -/
def window (bytes : Payload) (p : Position) (n : Nat) : List UInt8 :=
  (bytes.extract p.toNat (p.advance n).toNat).toList

/-- The index of the first zero byte at or after `i`, or the size when there is none. -/
def zeroIndex (bytes : Payload) (i : Nat) : Nat :=
  if h : i < bytes.size then
    if bytes[i] = 0 then i else zeroIndex bytes (i + 1)
  else
    i
termination_by bytes.size - i

/-- The bytes from `p` up to the next zero byte or the end, and the position after them; a zero
byte that was found is passed over. Outside the payload there is nothing to read or to pass. -/
def segment (bytes : Payload) (p : Position) : List UInt8 × Position :=
  if 0 ≤ p ∧ p ≤ bytes.size then
    let stop := zeroIndex bytes p.toNat
    let next := if stop < bytes.size then stop + 1 else stop
    ((bytes.extract p.toNat stop).toList, p.advance (next - p.toNat))
  else
    ([], p)

end Payload

end BinaryLayout
