import BinaryLayout.Files.Path
import BinaryLayout.Payload

/-!
# Access to files

What a command asks of the files around it (`FileQueries`) and what it does to them
(`FileChanges`), apart from where they are. Asking changes nothing: code that only asks says so in
its type.
-/

namespace BinaryLayout

/-- What a path leads to. -/
inductive FileKind where
  | directory
  | file
deriving DecidableEq, Repr

/-- Why an operation on a file fails. -/
inductive FileError where
  | notFound
  | alreadyExists
  | notDirectory
  | isDirectory
  | nameTooLong
  /-- Any other reason, in words. -/
  | other (reason : String)
deriving DecidableEq, Repr

/-- The reason in words, with its number. -/
def FileError.message : FileError → String
  | .notFound => "No such file or directory (os error 2)"
  | .alreadyExists => "File exists (os error 17)"
  | .notDirectory => "Not a directory (os error 20)"
  | .isDirectory => "Is a directory (os error 21)"
  | .nameTooLong => "File name too long (os error 36)"
  | .other reason => reason

/-- What can be asked of files. -/
class FileQueries (m : Type → Type) where
  /-- What a path leads to, if anything. -/
  kind? : String → m (Option FileKind)
  /-- The bytes of a file. -/
  read : String → m (Except FileError Payload)
  /-- The names in a directory, in alphabetical order. -/
  children : String → m (List String)
  /-- Everything below a directory, each with the names that lead to it: what a directory holds
  comes right after it, and the names of one directory come in alphabetical order. -/
  descendants : String → m (List (List String))
  /-- Whether two paths lead to one and the same thing. -/
  same : String → String → m Bool
  /-- All bytes of standard input. -/
  standardInput : m Payload

/-- Code that may fail asks like code that may not. -/
instance {ε : Type} {m : Type → Type} [Monad m] [FileQueries m] :
    FileQueries (ExceptT ε m) where
  kind? path := ExceptT.lift (FileQueries.kind? path)
  read path := ExceptT.lift (FileQueries.read path)
  children path := ExceptT.lift (FileQueries.children path)
  descendants path := ExceptT.lift (FileQueries.descendants path)
  same left right := ExceptT.lift (FileQueries.same left right)
  standardInput := ExceptT.lift FileQueries.standardInput

/-- What can be done to files. -/
class FileChanges (m : Type → Type) where
  /-- Makes a directory in one that exists. -/
  makeDirectory : String → m (Except FileError Unit)
  /-- Whether a path leads to a directory. -/
  isDirectory : String → m Bool
  /-- Gives a file a new content. The file is made if there is none. -/
  write : String → String → m (Except FileError Unit)

variable {m : Type → Type} [Monad m] [FileChanges m]

/-- Makes the first of the given directories, each of which stands in the next one, and first
those others that are missing. -/
def makeDirectories : List String → m (Except FileError Unit)
  | [] => pure (.ok ())
  | path :: above => do
    if path.isEmpty then return .ok ()
    match ← FileChanges.makeDirectory path with
    | .ok () => return .ok ()
    | .error .notFound =>
      match ← makeDirectories above with
      | .error e => return .error e
      | .ok () =>
        match ← FileChanges.makeDirectory path with
        | .ok () => return .ok ()
        | .error e => return if ← FileChanges.isDirectory path then .ok () else .error e
    | .error e => return if ← FileChanges.isDirectory path then .ok () else .error e

end BinaryLayout
