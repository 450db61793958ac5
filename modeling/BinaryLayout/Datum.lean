import BinaryLayout.Number
import BinaryLayout.Mapping

/-!
# Decoded data

Decoding yields trees: numbers and texts at the leaves, sequences and mappings above them.
-/

namespace BinaryLayout

/-- One node of decoded data with all that is under it. -/
inductive Datum where
  | number (n : Number)
  | text (s : String)
  | sequence (items : List Datum)
  | mapping (fields : Mapping Datum)
deriving Repr

namespace Datum

/-- The number at a number leaf. -/
def number? : Datum → Option Number
  | .number n => some n
  | _ => none

/-- The text at a text leaf. -/
def text? : Datum → Option String
  | .text s => some s
  | _ => none

/-- The items of a sequence. -/
def sequence? : Datum → Option (List Datum)
  | .sequence items => some items
  | _ => none

/-- The fields of a mapping. -/
def mapping? : Datum → Option (Mapping Datum)
  | .mapping fields => some fields
  | _ => none

/-- Whether this is a number leaf with a NaN. -/
def isNaN : Datum → Bool
  | .number n => n.isNaN
  | _ => false

mutual

/-- Equality of trees, node by node. A NaN anywhere makes a tree unequal to itself. -/
def equal : Datum → Datum → Bool
  | .number m, .number n => m.equal n
  | .text s, .text t => s == t
  | .sequence xs, .sequence ys => equalItems xs ys
  | .mapping xs, .mapping ys => equalFields xs ys
  | _, _ => false

/-- Equality of sequences: as many items, and equal ones. -/
def equalItems : List Datum → List Datum → Bool
  | [], [] => true
  | x :: xs, y :: ys => x.equal y && equalItems xs ys
  | _, _ => false

/-- Equality of mappings: the same names in the same order, with equal values. -/
def equalFields : Mapping Datum → Mapping Datum → Bool
  | .empty, .empty => true
  | .entry j x xs, .entry k y ys => j == k && x.equal y && equalFields xs ys
  | _, _ => false

end

end Datum

end BinaryLayout
