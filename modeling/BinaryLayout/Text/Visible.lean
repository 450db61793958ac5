/-!
# Bytes made visible

A byte that a message names stands between single quotes as the character with its number, one of
the first 256 of Unicode. A character that would end the quotes, that begins an escape, or that
leaves nothing to be seen is escaped.
-/

namespace BinaryLayout.Text

/-- Whether nothing is seen of a character among the first 256 of Unicode: the control characters,
the no-break space and the soft hyphen. -/
def isInvisible (c : Char) : Bool :=
  c.toNat < 0x20 || (0x7F ≤ c.toNat && c.toNat ≤ 0xA0) || c.toNat == 0xAD

/-- The escape of a character by its number. -/
def escapeNumber (n : Nat) : List Char := ['\\', 'u', '{'] ++ Nat.toDigits 16 n ++ ['}']

/-- What stands for a byte between single quotes. -/
def visible (b : UInt8) : List Char :=
  let c := Char.ofNat b.toNat
  if c = '\x00' then ['\\', '0']
  else if c = '\t' then ['\\', 't']
  else if c = '\n' then ['\\', 'n']
  else if c = '\r' then ['\\', 'r']
  else if c = '\x27' ∨ c = '\\' then ['\\', c]
  else if isInvisible c then escapeNumber b.toNat
  else [c]

end BinaryLayout.Text
