/-!
# Positions in a payload

A position is a byte index that may lie before the first byte or past the last one.
Positions stay in the signed 64-bit range: a move that would leave it stops at the end it
was heading for, and one move covers at most `Position.highest` bytes.
-/

namespace BinaryLayout

/-- A byte index, negative before the start of the payload. -/
abbrev Position := Int

namespace Position

/-- The least position. -/
def lowest : Position := -9223372036854775808

/-- The greatest position, and the longest distance of one move. -/
def highest : Position := 9223372036854775807

/-- The position nearest to `p`. -/
def clamp (p : Int) : Position := max lowest (min p highest)

/-- The distance that a count of `n` bytes stands for. -/
def distance (n : Nat) : Int := min (n : Int) highest

/-- The position `n` bytes further on. -/
def advance (p : Position) (n : Nat) : Position := clamp (p + distance n)

/-- The position `n` bytes back. -/
def retreat (p : Position) (n : Nat) : Position := clamp (p - distance n)

/-- The position `n` bytes after the start of the payload. -/
def ofStart (n : Nat) : Position := distance n

/-- Where decoding starts when `offset` is asked for: never before the payload. -/
def ofOffset (offset : Int) : Position := max offset 0

end Position

end BinaryLayout
