import BinaryLayout.Payload
import BinaryLayout.Text.Utf8
import BinaryLayout.Text.Hex

/-!
# Text fields

A text field has a width: a number of bytes, or of hexadecimal digits with two to a byte. Bytes
that the payload does not hold are left out, and the field covers its width all the same.
-/

namespace BinaryLayout

/-- A field that holds one text of fixed width. -/
inductive TextField where
  /-- All bytes as they are. -/
  | raw
  /-- Padded at the end with blanks or zero bytes. -/
  | blankPadded
  /-- Padded at the end with zero bytes. -/
  | zeroPadded
  /-- The digits of the bytes, each byte's given half first. -/
  | hex (first : Hex.Nibble)
deriving DecidableEq, Repr

/-- The characters of a text up to the last one that is no padding. -/
def dropPadding (isPadding : Char → Bool) (text : List Char) : List Char :=
  (text.reverse.dropWhile isPadding).reverse

/-- What a blank-padded field may be padded with. -/
def isBlankPadding (c : Char) : Bool :=
  c == ' ' || c == '\t' || c == '\n' || c == '\r' || c == '\x00'

/-- What a zero-padded field is padded with. -/
def isZeroPadding (c : Char) : Bool := c == '\x00'

namespace TextField

/-- The number of bytes that a field of `width` covers. -/
def span : TextField → Nat → Nat
  | .hex _, width => (width + 1) / 2
  | _, width => width

/-- The text that the field's bytes stand for. -/
def ofBytes : TextField → Nat → List UInt8 → List Char
  | .raw, _, bytes => Utf8.decode bytes
  | .blankPadded, _, bytes => dropPadding isBlankPadding (Utf8.decode bytes)
  | .zeroPadded, _, bytes => dropPadding isZeroPadding (Utf8.decode bytes)
  | .hex first, width, bytes => (Hex.write first bytes).take width

/-- Reads the field at `p`: the text, and the position behind the field. -/
def read (field : TextField) (width : Nat) (bytes : Payload) (p : Position) : String × Position :=
  let span := field.span width
  (String.ofList (field.ofBytes width (bytes.window p span)), p.advance span)

end TextField

/-- Reads a text that a zero byte or the end of the payload ends. -/
def readTerminated (bytes : Payload) (p : Position) : String × Position :=
  let (found, next) := bytes.segment p
  (String.ofList (Utf8.decode found), next)

end BinaryLayout
