import BinaryLayout.FormatError
import BinaryLayout.Text.Blank

/-!
# Tokens

A format is read one token at a time: a code with the count that follows it and, inside a record,
the field name before it. A token is never empty, so what is left after it is shorter
(`Token.length_of_next?`).
-/

namespace BinaryLayout

/-! ## Counts -/

namespace Count

/-- The greatest count. Digits that stand for more count as this much. -/
def greatest : Nat := UInt64.size - 1

/-- A sum of counts, `greatest` at most. -/
def add (m n : Nat) : Nat := min (m + n) greatest

/-- A product of counts, `greatest` at most. -/
def mul (m n : Nat) : Nat := min (m * n) greatest

/-- The count that a run of digits stands for. -/
def ofDigits (digits : List Char) : Nat :=
  digits.foldl (fun n d => add (mul n 10) (d.toNat - '0'.toNat)) 0

/-- Reads the digits that come first, as a count if there are any. -/
def read (text : List Char) : Option Nat × List Char :=
  let digits := text.takeWhile Char.isDigit
  (if digits.isEmpty then none else some (ofDigits digits), text.dropWhile Char.isDigit)

end Count

/-! ## Field names -/

namespace FieldName

/-- Whether a name may begin with `c`. -/
def isStart (c : Char) : Bool := c.isAlpha || c == '_' || c == '$'

/-- Drops what stands before the next name or closing brace. A backslash hides the character
after it. -/
def seek : List Char → List Char
  | [] => []
  | c :: rest =>
    if isStart c || c == '}' then c :: rest
    else if c = '\\' then
      match rest with
      | [] => []
      | _ :: rest => seek rest
    else seek rest

/-- What a backslash before `c` stands for: an escaped colon or backslash is itself, and before
anything else the backslash is kept. -/
def unescape (c : Char) : List Char :=
  if c = ':' ∨ c = '\\' then [c] else ['\\', c]

/-- Reads a name up to its colon, with what follows the colon. There is none if a closing brace or
the end of the text comes first. -/
def read? : List Char → Option (List Char × List Char)
  | [] => none
  | c :: rest =>
    if c = ':' then some ([], rest)
    else if c = '}' then none
    else if c = '\\' then
      match rest with
      | [] => none
      | d :: rest => (read? rest).map fun (name, rest) => (unescape d ++ name, rest)
    else (read? rest).map fun (name, rest) => (c :: name, rest)

/-- Finds the next field name of a record. In front of a closing brace the name is empty and the
brace is left; at the end of the text there is no name. -/
def next? (text : List Char) : Except FormatError (Option (List Char × List Char)) :=
  match seek text with
  | [] => .ok none
  | c :: rest =>
    if c = '}' then .ok (some ([], c :: rest))
    else
      match read? (c :: rest) with
      | some (name, rest) => .ok (some (name, rest.dropWhile Text.isAsciiBlank))
      | none => .error (.unterminatedName (FormatError.preview (c :: rest)))

end FieldName

/-! ## Tokens -/

/-- One code of a format. -/
structure Token where
  /-- The field name, inside a record. -/
  name : Option String
  code : Code
  /-- The count that follows the code, if one does. -/
  count : Option Nat
deriving DecidableEq, Repr

namespace Token

/-- The code that comes first, with what follows it. The longer form wins. -/
def code? : List Char → Option (Code × List Char)
  | [] => none
  | [c] => some (.ofChar c, [])
  | c :: d :: rest =>
    match Code.ofPair? c d with
    | some code => some (code, rest)
    | none => some (.ofChar c, d :: rest)

/-- Reads a code and its count under a name. -/
def read? (name : Option String) (text : List Char) : Option (Token × List Char) :=
  (code? text).map fun (code, rest) =>
    let (count, rest) := Count.read rest
    (⟨name, code, count⟩, rest)

/-- Reads the next token, with what follows it; inside a record a field name comes before it. -/
def next? (inRecord : Bool) (text : List Char) : Except FormatError (Option (Token × List Char)) :=
  if inRecord then
    match FieldName.next? text with
    | .error e => .error e
    | .ok none => .ok none
    | .ok (some (name, rest)) => .ok (read? (some (String.ofList name)) rest)
  else
    .ok (read? none text)

end Token

end BinaryLayout
