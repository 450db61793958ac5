import BinaryLayout.Code

/-!
# Why a format is refused

The causes, and the one message that each of them has.
-/

namespace BinaryLayout

/-- Why a text is no format. -/
inductive FormatError where
  /-- The text ends inside a group. -/
  | unterminatedGroup (kind : GroupKind)
  /-- A group is to be repeated no times. -/
  | zeroRepeat (kind : GroupKind)
  /-- A field name that begins like this has no colon. -/
  | unterminatedName (preview : String)
  /-- More groups than `limit` stand inside one another. -/
  | tooDeep (limit : Nat)
  /-- One run may yield more than `limit` data. -/
  | tooManyValues (limit : Nat)
  /-- There is no such operation. -/
  | unsupported (operation : String)
deriving DecidableEq, Repr

namespace FormatError

/-- The number of characters of a field name that a message shows. -/
def previewLength : Nat := 20

/-- The beginning of a text, with dots if there is more of it. -/
def preview (text : List Char) : String :=
  if text.length ≤ previewLength then String.ofList text
  else String.ofList (text.take previewLength ++ ['.', '.', '.'])

/-- What is wrong, in words. -/
def message : FormatError → String
  | .unterminatedGroup kind =>
    "unterminated " ++ kind.word ++ " group: missing closing bracket for '"
      ++ kind.bracket.toString ++ "'"
  | .zeroRepeat kind =>
    "zero repeat count for " ++ kind.word ++ " group '" ++ kind.bracket.toString ++ "'"
  | .unterminatedName preview => "unterminated field name: no ':' after \"" ++ preview ++ "\""
  | .tooDeep limit => "groups nested deeper than the limit of " ++ toString limit
  | .tooManyValues limit => "format can produce more than " ++ toString limit ++ " values"
  | .unsupported operation => operation ++ ": not implemented"

/-- What to do about it, for the command line. -/
def hint : FormatError → String
  | .unterminatedGroup _ => "close every '[' with ']' and every '\x7b' with '\x7d'"
  | .zeroRepeat _ => "groups repeat at least once; drop the 0"
  | .unterminatedName _ => "record fields are written name:CODE; escape a literal ':' as '\\:'"
  | .tooDeep _ => "raise --max-depth or flatten the format"
  | .tooManyValues _ => "lower the repeat counts or raise --max-values"
  | .unsupported _ => "only decoding is supported"

end FormatError

end BinaryLayout
