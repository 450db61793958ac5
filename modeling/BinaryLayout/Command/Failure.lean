import BinaryLayout.Files.Access
import BinaryLayout.FormatError
import BinaryLayout.Glob.Pattern
import BinaryLayout.Json.Refusal
import BinaryLayout.Text.Visible

/-!
# Why a run fails

Each cause has one message, and most have a hint what to do about it.
-/

namespace BinaryLayout.Command

/-- Why a run fails. -/
inductive Failure where
  /-- The file of limits cannot be read as text. -/
  | configUnreadable (path reason : String)
  /-- The file of limits holds none. -/
  | configInvalid (path : String) (refusal : Json.Refusal)
  | formatInvalid (e : FormatError)
  /-- The number of hexadecimal digits is odd. -/
  | hexOdd (count : Nat)
  /-- This byte among the hexadecimal digits is none. -/
  | hexInvalid (byte : UInt8) (index : Nat)
  | patternInvalid (pattern : String) (e : Glob.Error)
  | noMatch (pattern : String)
  | manyMatches (pattern : String) (paths : List String)
  | inputMissing (path : String)
  | inputNotFile (path : String)
  | inputUnreadable (path : String) (e : FileError)
  /-- The output would take the place of the input. -/
  | outputIsInput (path : String)
  | directoryNotMade (path : String) (e : FileError)
  | outputNotWritten (path : String) (e : FileError)
deriving DecidableEq, Repr

namespace Failure

/-- The message about a file that holds no limits. -/
def configMessage (path reason : String) : String := "invalid config " ++ path ++ ": " ++ reason

/-- Why a JSON text is refused, in words. -/
def refusalReason : Json.Refusal → String
  | .incomplete => "the text ends too early"
  | .malformed => "this is not JSON"
  | .mismatch => "a value is of the wrong kind"

/-- The number of paths that a message names. -/
def namedPaths : Nat := 3

/-- The first of some paths, with dots if there are more. -/
def nameSome (paths : List String) : String :=
  String.intercalate ", " (paths.take namedPaths)
    ++ if namedPaths < paths.length then ", ..." else ""

/-- What has gone wrong, in words. -/
def message : Failure → String
  | .configUnreadable path reason => "Failed to read config: " ++ path ++ ": " ++ reason
  | .configInvalid path refusal => configMessage path (refusalReason refusal)
  | .formatInvalid e => "invalid format: " ++ e.message
  | .hexOdd count => "odd number of hex digits (" ++ toString count ++ ")"
  | .hexInvalid byte index =>
    "invalid hex input: Invalid character '" ++ String.ofList (Text.visible byte)
      ++ "' at position " ++ toString index
  | .patternInvalid pattern _ => "invalid input pattern '" ++ pattern ++ "'"
  | .noMatch pattern => "no files match pattern '" ++ pattern ++ "'"
  | .manyMatches pattern paths =>
    "multiple files match pattern '" ++ pattern ++ "' (" ++ toString paths.length
      ++ " matches); matches: " ++ nameSome paths
  | .inputMissing path => "input file not found: " ++ path
  | .inputNotFile path => "input is not a file: " ++ path
  | .inputUnreadable path e => "Failed to read input file: " ++ path ++ ": " ++ e.message
  | .outputIsInput path => "output path must differ from input: " ++ path
  | .directoryNotMade path e =>
    "Failed to create output directory: " ++ path ++ ": " ++ e.message
  | .outputNotWritten path e => "Failed to write output: " ++ path ++ ": " ++ e.message

/-- What to do about it. -/
def hint? : Failure → Option String
  | .configInvalid _ _ => some "expected a JSON object like \x7b\"max_depth\": 64\x7d"
  | .formatInvalid e => some e.hint
  | .hexOdd _ => some "each byte needs two hex digits, e.g. 0a"
  | .hexInvalid _ _ => some "use digits 0-9 and a-f"
  | .patternInvalid _ e => some ("pattern error: " ++ e.message)
  | .noMatch _ => some "check the path or quote the pattern"
  | .manyMatches _ _ => some "pass a single input file, or run once per file"
  | .inputMissing _ => some "check the path, or use '-' to read stdin"
  | .inputNotFile _ => some "pass a regular file"
  | .outputIsInput _ => some "choose a different output path"
  | _ => none

/-- The lines that stand on standard error. -/
def lines (message : String) (hint? : Option String) : String :=
  "error: " ++ message ++ "\n" ++
    match hint? with
    | some hint => "hint: " ++ hint ++ "\n"
    | none => ""

/-- The text of a failure. -/
def report (failure : Failure) : String := lines failure.message failure.hint?

end Failure

end BinaryLayout.Command
