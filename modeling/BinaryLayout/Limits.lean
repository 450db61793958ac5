/-!
# Limits

What a format may ask for at most: how deeply its groups may stand inside one another, and how
many data one run of it may yield.
-/

namespace BinaryLayout

/-- The limits under which a format is read. -/
structure Limits where
  /-- The number of groups that may stand inside one another. -/
  depth : UInt64 := 64
  /-- The number of data that one run may yield. -/
  values : UInt64 := 16777216
deriving DecidableEq, Repr

namespace Limits

/-- The greatest limits. No format that can be read at all is refused for its data under them. -/
def greatest : Limits := ⟨UInt64.ofNat (UInt64.size - 1), UInt64.ofNat (UInt64.size - 1)⟩

end Limits

end BinaryLayout
