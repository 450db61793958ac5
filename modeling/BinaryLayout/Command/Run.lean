import BinaryLayout.Command.Arguments
import BinaryLayout.Command.Failure
import BinaryLayout.Datum.Json
import BinaryLayout.Files.Tree
import BinaryLayout.Format
import BinaryLayout.Glob.Expand
import BinaryLayout.Limits.Json

/-!
# A run of the command

A run has two halves. The first one reads and decodes (`prepare`): the limits, then the format,
then the bytes, and stops at the first of them that fails. It can only ask. The second one prints
the text or writes it to a file (`Action.perform`), and it alone changes anything.

`runIn` is a run in a tree of files.
-/

namespace BinaryLayout.Command

/-! ## Reading -/

/-- What is left to do when all has been read. -/
inductive Action where
  | print (text : String)
  /-- Writes a text to a file, and then a note to standard error. -/
  | save (path text note : String)
deriving DecidableEq, Repr

section

variable {m : Type → Type} [Monad m] [FileQueries m]

/-- The limits in a file. -/
def readConfig (path : String) : ExceptT Failure m Limits := do
  match ← FileQueries.read path with
  | .error e => throw (.configUnreadable path e.message)
  | .ok bytes =>
    match String.fromUTF8? ⟨bytes⟩ with
    | none => throw (.configUnreadable path "stream did not contain valid UTF-8")
    | some text =>
      match Limits.ofJson text with
      | .error refusal => throw (.configInvalid path refusal)
      | .ok limits => return limits

/-- The limits of a run: those among the arguments, then those in the file, then the defaults. -/
def readLimits (arguments : Arguments) : ExceptT Failure m Limits := do
  let base ←
    match arguments.config with
    | some path => readConfig path
    | none => pure {}
  return ⟨arguments.depth.getD base.depth, arguments.values.getD base.values⟩

/-- The bytes that hexadecimal digits stand for, wherever there is white space between them. -/
def readHex (digits : String) : Except Failure Payload :=
  let digits := String.ofList (digits.toList.filter fun c => !Text.isBlank c)
  match Hex.read digits.toUTF8.data.toList with
  | .ok bytes => .ok bytes
  | .error (.oddLength count) => .error (.hexOdd count)
  | .error (.notDigit byte index) => .error (.hexInvalid byte index)

/-- Whether a path leads to a file. -/
def isFile (path : String) : m Bool := do
  return (← FileQueries.kind? path) == some .file

/-- The files that a pattern stands for. -/
def findFiles (pattern : Glob.Pattern) : m (List String) := do
  (← pattern.expand).filterM isFile

/-- The path that an input stands for: a pattern stands for the only file that it matches. -/
def resolve (input : String) : ExceptT Failure m String := do
  if !Glob.isPattern input then return input
  match Glob.Pattern.ofText input with
  | .error e => throw (.patternInvalid input e)
  | .ok pattern =>
    match ← findFiles pattern with
    | [] => throw (.noMatch input)
    | [path] => return path
    | paths => throw (.manyMatches input paths)

/-- The bytes of the file that an input stands for. The output must not be the same file. -/
def readFile (input : String) (output : Option String) : ExceptT Failure m Payload := do
  let path ← resolve input
  match ← FileQueries.kind? path with
  | none => throw (.inputMissing path)
  | some .directory => throw (.inputNotFile path)
  | some .file =>
    match output with
    | some output => if ← FileQueries.same output path then throw (.outputIsInput output)
    | none => pure ()
    match ← FileQueries.read path with
    | .error e => throw (.inputUnreadable path e)
    | .ok bytes => return bytes

/-- The bytes to be decoded. -/
def readSource (arguments : Arguments) : ExceptT Failure m Payload :=
  match arguments.source with
  | .hex digits => liftM (readHex digits)
  | .path path =>
    if path = "-" then FileQueries.standardInput else readFile path arguments.output

/-- The note on a text that has been written to a file. -/
def savedNote (values bytes : Nat) (path : String) : String :=
  "OK: " ++ toString values ++ " values from " ++ toString bytes ++ " bytes -> " ++ path ++ "\n"

/-- What is to be done with the data that bytes hold. -/
def Action.ofValues (arguments : Arguments) (bytes : Payload) (values : List Datum) : Action :=
  let text := Datum.printAll (if arguments.pretty then .pretty else .compact) values
  match arguments.output with
  | none => .print (text ++ "\n")
  | some path =>
    .save path text (if arguments.quiet then "" else savedNote values.length bytes.size path)

/-- Reads all that a run needs and decodes it. -/
def prepare (arguments : Arguments) : ExceptT Failure m Action := do
  let limits ← readLimits arguments
  match Format.ofText limits arguments.format with
  | .error e => throw (.formatInvalid e)
  | .ok format =>
    let bytes ← readSource arguments
    return .ofValues arguments bytes (format.decode bytes arguments.offset)

end

/-! ## Writing -/

/-- How a run ends. -/
inductive Outcome where
  | printed (text : String)
  | saved (note : String)
  | failed (failure : Failure)
deriving DecidableEq, Repr

namespace Outcome

/-- The exit code. -/
def exitCode : Outcome → UInt32
  | .failed _ => 2
  | _ => 0

/-- What stands on standard output. -/
def output : Outcome → String
  | .printed text => text
  | _ => ""

/-- What stands on standard error. -/
def error : Outcome → String
  | .printed _ => ""
  | .saved note => note
  | .failed failure => failure.report

end Outcome

/-- Prints a text, or writes it to a file in a directory that is made if it is missing. -/
def Action.perform {m : Type → Type} [Monad m] [FileChanges m] : Action → m Outcome
  | .print text => pure (.printed text)
  | .save path text note => do
    let above := Path.ancestors path
    match ← makeDirectories above with
    | .error e => return .failed (.directoryNotMade (above.head?.getD "") e)
    | .ok () =>
      match ← FileChanges.write path text with
      | .error e => return .failed (.outputNotWritten path e)
      | .ok () => return .saved note

/-- What a run prepares among these surroundings. -/
def prepareIn (world : Surroundings) (arguments : Arguments) : Except Failure Action :=
  (prepare arguments : ExceptT Failure (ReaderM Surroundings) Action).run world

/-- A run in a tree of files: how it ends, and the tree that it leaves. -/
def runIn (world : Surroundings) (arguments : Arguments) : Outcome × Tree :=
  match prepareIn world arguments with
  | .error failure => (.failed failure, world.tree)
  | .ok action => (action.perform : StateM Tree Outcome).run world.tree

end BinaryLayout.Command
