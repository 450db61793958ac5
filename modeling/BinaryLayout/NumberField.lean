import BinaryLayout.Payload
import BinaryLayout.Number

/-!
# Number fields

A number field has a fixed width and a byte order. If the payload holds all of its bytes they are
read in base 256; otherwise the field yields `Number.overrun`. Either way it covers its width.
-/

namespace BinaryLayout

/-- Which byte of a number comes first. -/
inductive ByteOrder where
  /-- The most significant byte comes first. -/
  | big
  /-- The least significant byte comes first. -/
  | little
deriving DecidableEq, Repr

/-- The number that most-significant-first bytes stand for in base 256. -/
def base256 (bytes : List UInt8) : Nat := bytes.foldl (fun n b => 256 * n + b.toNat) 0

/-- The number that bytes in this order stand for in base 256. -/
def ByteOrder.value : ByteOrder → List UInt8 → Nat
  | .big, bytes => base256 bytes
  | .little, bytes => base256 bytes.reverse

/-- Whether an integer has a sign. -/
inductive Signedness where
  | unsigned
  | signed
deriving DecidableEq, Repr

/-- The number that a field of `width` bytes with base-256 value `n` holds: signed fields are in
two's complement. -/
def Signedness.number : Signedness → Nat → Nat → Number
  | .unsigned, _, n => .unsigned (UInt64.ofNat n)
  | .signed, width, n =>
    let above : Nat := 1 <<< (8 * width)
    .signed (Int64.ofInt (if 2 * n < above then n else (n : Int) - above))

/-- The width of an integer of several bytes. -/
inductive WordSize where
  | two
  | four
  | eight
deriving DecidableEq, Repr

/-- The number of bytes. -/
def WordSize.bytes : WordSize → Nat
  | .two => 2
  | .four => 4
  | .eight => 8

/-- The precision of a floating-point number. -/
inductive Precision where
  | single
  | double
deriving DecidableEq, Repr

/-- The number of bytes. -/
def Precision.bytes : Precision → Nat
  | .single => 4
  | .double => 8

/-- A field that holds one number. -/
inductive NumberField where
  /-- An integer of one byte. -/
  | byte (sign : Signedness)
  /-- An integer of several bytes. -/
  | word (sign : Signedness) (size : WordSize) (order : ByteOrder)
  /-- A floating-point number. -/
  | real (precision : Precision) (order : ByteOrder)
deriving DecidableEq, Repr

namespace NumberField

/-- The number of bytes that the field covers. -/
def width : NumberField → Nat
  | .byte _ => 1
  | .word _ size _ => size.bytes
  | .real precision _ => precision.bytes

/-- The number that the field's bytes stand for. -/
def ofBytes : NumberField → List UInt8 → Number
  | .byte sign, bytes => sign.number 1 (base256 bytes)
  | .word sign size order, bytes => sign.number size.bytes (order.value bytes)
  | .real .single order, bytes => .float (.ofBinary32 (order.value bytes))
  | .real .double order, bytes => .float ⟨UInt64.ofNat (order.value bytes)⟩

/-- Reads the field at `p`: the number, and the position behind the field. -/
def read (field : NumberField) (bytes : Payload) (p : Position) : Number × Position :=
  let number :=
    match bytes.take? p field.width with
    | some found => field.ofBytes found
    | none => .overrun
  (number, p.advance field.width)

end NumberField

end BinaryLayout
