/-!
# Reading UTF-8

`Utf8.decode` reads any bytes as text. Well-formed sequences become their characters; each
maximal part of an ill-formed sequence becomes one replacement character. The reader looks at
one byte at a time and remembers at most one character that has begun and is not yet complete.
-/

namespace BinaryLayout.Utf8

/-- What stands for bytes that are no character. -/
def replacement : Char := '\ufffd'

/-- A character that has begun: its bits so far, the number of bytes it still needs, and the
range in which the next of them must lie. -/
structure Pending where
  bits : Nat
  needs : Nat
  low : UInt8
  high : UInt8
deriving DecidableEq, Repr

/-- What a byte means between two characters: the characters it completes, and what it begins. -/
def lead (b : UInt8) : List Char × Option Pending :=
  if b < 0x80 then ([Char.ofNat b.toNat], none)
  else if b < 0xC2 then ([replacement], none)
  else if b < 0xE0 then ([], some ⟨b.toNat - 0xC0, 1, 0x80, 0xBF⟩)
  else if b = 0xE0 then ([], some ⟨0x0, 2, 0xA0, 0xBF⟩)
  else if b = 0xED then ([], some ⟨0xD, 2, 0x80, 0x9F⟩)
  else if b < 0xF0 then ([], some ⟨b.toNat - 0xE0, 2, 0x80, 0xBF⟩)
  else if b = 0xF0 then ([], some ⟨0x0, 3, 0x90, 0xBF⟩)
  else if b < 0xF4 then ([], some ⟨b.toNat - 0xF0, 3, 0x80, 0xBF⟩)
  else if b = 0xF4 then ([], some ⟨0x4, 3, 0x80, 0x8F⟩)
  else ([replacement], none)

/-- What a byte means after what has begun: it continues the character, or it breaks it off and
counts as a first byte. -/
def step : Option Pending → UInt8 → List Char × Option Pending
  | none, b => lead b
  | some c, b =>
    if c.low ≤ b ∧ b ≤ c.high then
      let bits := c.bits * 64 + (b.toNat - 0x80)
      if c.needs = 1 then ([Char.ofNat bits], none)
      else ([], some ⟨bits, c.needs - 1, 0x80, 0xBF⟩)
    else
      let (out, next) := lead b
      (replacement :: out, next)

/-- The characters read so far, last first, and the character that has begun. -/
abbrev Progress := List Char × Option Pending

/-- Reads one byte. -/
def feed (progress : Progress) (b : UInt8) : Progress :=
  let (out, next) := step progress.2 b
  (out.reverse ++ progress.1, next)

/-- The characters read, once no more bytes come: a character left incomplete is ill-formed. -/
def finish : Progress → List Char
  | (chars, none) => chars.reverse
  | (chars, some _) => (replacement :: chars).reverse

/-- The text that `bytes` hold. -/
def decode (bytes : List UInt8) : List Char :=
  finish (bytes.foldl feed ([], none))

end BinaryLayout.Utf8
