import BinaryLayout.Field

/-!
# Codes

The single characters of a format and what they stand for, with the two-character forms: a plus
sign after `Z`, and a byte order after the letters of plain numbers.
-/

namespace BinaryLayout

/-- A bracketed part of a format. -/
inductive GroupKind where
  /-- Between square brackets; it yields a sequence. -/
  | array
  /-- Between braces; it yields a mapping of named fields. -/
  | record
deriving DecidableEq, Repr

/-- The word for the kind in messages. -/
def GroupKind.word : GroupKind → String
  | .array => "array"
  | .record => "record"

/-- The bracket that opens a group. -/
def GroupKind.bracket : GroupKind → Char
  | .array => '['
  | .record => '{'

/-- What a code stands for. -/
inductive Code where
  | field (field : Field)
  | opening (kind : GroupKind)
  /-- Either closing bracket ends either kind of group. -/
  | closing
  /-- Any other character, such as a separator; it stands for nothing. -/
  | blank
deriving DecidableEq, Repr

namespace Code

/-- The code of an integer of several bytes. -/
def word (sign : Signedness) (size : WordSize) (order : ByteOrder) : Code :=
  .field (.number (.word sign size order))

/-- The code of a floating-point number. -/
def real (precision : Precision) (order : ByteOrder) : Code :=
  .field (.number (.real precision order))

/-- What one character stands for. -/
def ofChar (c : Char) : Code :=
  match c with
  | 'c' => .field (.number (.byte .signed))
  | 'C' => .field (.number (.byte .unsigned))
  | 's' => word .signed .two .big
  | 'S' | 'n' => word .unsigned .two .big
  | 'v' => word .unsigned .two .little
  | 'l' => word .signed .four .big
  | 'L' | 'N' => word .unsigned .four .big
  | 'V' => word .unsigned .four .little
  | 'q' => word .signed .eight .big
  | 'Q' | 'J' => word .unsigned .eight .big
  | 'P' => word .unsigned .eight .little
  | 'f' | 'G' => real .single .big
  | 'g' => real .single .little
  | 'd' | 'E' => real .double .big
  | 'e' => real .double .little
  | 'a' => .field (.text .raw)
  | 'A' => .field (.text .blankPadded)
  | 'Z' => .field (.text .zeroPadded)
  | 'H' => .field (.text (.hex .high))
  | 'h' => .field (.text (.hex .low))
  | 'x' => .field (.move .forward)
  | 'X' => .field (.move .backward)
  | '@' => .field (.move .absolute)
  | '[' => .opening .array
  | '{' => .opening .record
  | ']' | '}' => .closing
  | _ => .blank

/-- The number that a letter stands for when a byte order follows it. -/
def ordered? (c : Char) (order : ByteOrder) : Option Code :=
  match c with
  | 's' => some (word .signed .two order)
  | 'S' => some (word .unsigned .two order)
  | 'l' => some (word .signed .four order)
  | 'L' => some (word .unsigned .four order)
  | 'q' => some (word .signed .eight order)
  | 'Q' => some (word .unsigned .eight order)
  | 'f' => some (real .single order)
  | 'd' => some (real .double order)
  | _ => none

/-- What two characters stand for together, if they belong together. -/
def ofPair? (c suffix : Char) : Option Code :=
  match suffix with
  | '<' => ordered? c .little
  | '>' => ordered? c .big
  | '+' => if c = 'Z' then some (.field .terminated) else none
  | _ => none

end Code

end BinaryLayout
