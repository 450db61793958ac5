import BinaryLayout.Json.Basic
import BinaryLayout.Json.Quoted

/-!
# JSON values as text

One printer with two spacings: compact text has no white space at all, pretty text has one element
a line, indented by two spaces for each container around it. Empty containers stay closed up in
both. Neither ends in a line feed.
-/

namespace BinaryLayout.Json

/-- How much white space is put between the parts of a text. -/
inductive Spacing where
  | compact
  | pretty
deriving DecidableEq, Repr

/-- What stands before an element or a closing bracket inside `depth` containers. -/
def Spacing.newline : Spacing → Nat → List Char
  | .compact, _ => []
  | .pretty, depth => '\n' :: List.replicate (2 * depth) ' '

/-- What stands between a key and its value. -/
def Spacing.colon : Spacing → List Char
  | .compact => [':']
  | .pretty => [':', ' ']

mutual

/-- Writes a value that stands inside `depth` containers in front of `rest`. -/
def write (spacing : Spacing) (depth : Nat) : Json → List Char → List Char
  | .null, rest => 'n' :: 'u' :: 'l' :: 'l' :: rest
  | .number token, rest => token.toList ++ rest
  | .string s, rest => quote s ++ rest
  | .list [], rest => '[' :: ']' :: rest
  | .list (item :: items), rest =>
    '[' :: (spacing.newline (depth + 1) ++ write spacing (depth + 1) item
      (writeItems spacing (depth + 1) items (spacing.newline depth ++ ']' :: rest)))
  | .object .empty, rest => '{' :: '}' :: rest
  | .object (.entry key value members), rest =>
    '{' :: (spacing.newline (depth + 1) ++ quote key ++ spacing.colon
      ++ write spacing (depth + 1) value
        (writeMembers spacing (depth + 1) members (spacing.newline depth ++ '}' :: rest)))

/-- Writes the items after the first one in front of `rest`. -/
def writeItems (spacing : Spacing) (depth : Nat) : List Json → List Char → List Char
  | [], rest => rest
  | item :: items, rest =>
    ',' :: (spacing.newline depth ++ write spacing depth item (writeItems spacing depth items rest))

/-- Writes the members after the first one in front of `rest`. -/
def writeMembers (spacing : Spacing) (depth : Nat) : Mapping Json → List Char → List Char
  | .empty, rest => rest
  | .entry key value members, rest =>
    ',' :: (spacing.newline depth ++ quote key ++ spacing.colon ++ write spacing depth value
      (writeMembers spacing depth members rest))

end

/-- The text of a value. -/
def print (spacing : Spacing) (value : Json) : String :=
  String.ofList (write spacing 0 value [])

end BinaryLayout.Json
