import BinaryLayout.Command.Run

/-!
# The command

`main` reads the words of the command line and runs the command on the files of the system.
-/

namespace BinaryLayout.Command

/-- The reason for a failure of the system. -/
def fileError : IO.Error → FileError
  | .noFileOrDirectory _ _ _ => .notFound
  | .alreadyExists _ _ _ => .alreadyExists
  | .inappropriateType _ 20 _ => .notDirectory
  | .inappropriateType _ 21 _ => .isDirectory
  | .invalidArgument _ 36 _ => .nameTooLong
  | e => .other (toString e)

/-- The outcome of an action that may fail. -/
def attempt {α : Type} (action : IO α) : IO (Except FileError α) := do
  try
    return .ok (← action)
  catch e =>
    return .error (fileError e)

/-- What a path leads to. -/
def systemKind? (path : String) : IO (Option FileKind) := do
  match ← attempt do (← IO.FS.realPath path).metadata with
  | .ok found => return some (if found.type == .dir then .directory else .file)
  | .error _ => return none

/-- The names in a directory, in alphabetical order. -/
def systemChildren (path : String) : IO (List String) := do
  match ← attempt do (← IO.FS.realPath path).readDir with
  | .ok found => return (found.toList.map (·.fileName)).mergeSort fun a b => a ≤ b
  | .error _ => return []

/-- Everything below a directory. -/
partial def systemDescendants (path : String) : IO (List (List String)) := do
  let found ← (← systemChildren path).mapM fun name => do
    let below := Path.join path name
    if (← systemKind? below) == some .directory then
      return [name] :: (← systemDescendants below).map (name :: ·)
    else
      return [[name]]
  return found.flatten

instance : FileQueries IO where
  kind? := systemKind?
  read path := attempt do return (← IO.FS.readBinFile path).data
  children := systemChildren
  descendants := systemDescendants
  same left right := do
    match ← attempt (IO.FS.realPath left), ← attempt (IO.FS.realPath right) with
    | .ok a, .ok b => return a == b
    | _, _ => return false
  standardInput := do return (← (← IO.getStdin).readBinToEnd).data

instance : FileChanges IO where
  makeDirectory path := attempt (IO.FS.createDir path)
  isDirectory path := do return (← systemKind? path) == some .directory
  write path text := attempt (IO.FS.writeFile path text)

/-- Runs the command: the exit code. -/
def execute (arguments : Arguments) : IO UInt32 := do
  let outcome ←
    match ← (prepare arguments : ExceptT Failure IO Action).run with
    | .error failure => pure (.failed failure)
    | .ok action => action.perform
  IO.print outcome.output
  IO.eprint outcome.error
  return outcome.exitCode

end BinaryLayout.Command

open BinaryLayout.Command in
/-- Runs the command that the words stand for. -/
def main (words : List String) : IO UInt32 := do
  match Arguments.read words with
  | .ok arguments => execute arguments
  | .error .version =>
    IO.print versionText
    return 0
  | .error .help =>
    IO.print helpText
    return 0
  | .error .usage =>
    IO.eprint ("error: these arguments make no sense\n\n" ++ helpText)
    return 2
