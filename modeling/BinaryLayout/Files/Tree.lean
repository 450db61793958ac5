import BinaryLayout.Files.Access

/-!
# Trees of files

A tree holds directories and files, each at its location: the names that lead to it from the root.
A path is followed name by name from the root or from the working directory. Every step starts in
a directory, also one that leads nowhere, so a path with a slash at its end leads to a directory
or fails.

`Tree` answers all of `FileQueries` and `FileChanges`.
-/

namespace BinaryLayout

/-- The names that lead from the root to a file or directory. -/
abbrev Location := List String

/-- What a location holds. -/
inductive Entry where
  | directory
  | file (bytes : Payload)
deriving DecidableEq, Repr

/-- Whether this is a directory or a file. -/
def Entry.kind : Entry → FileKind
  | .directory => .directory
  | .file _ => .file

/-- A tree of files with a working directory in it. -/
structure Tree where
  /-- The working directory. -/
  here : Location
  /-- What the locations hold, in alphabetical order. The root is not among them. -/
  entries : List (Location × Entry)
deriving Repr

namespace Tree

/-- The greatest number of bytes in a name. -/
def longestName : Nat := 255

/-- The greatest number of bytes in a path. -/
def longestPath : Nat := 4095

/-- What a location holds. The root is always a directory. -/
def find? (tree : Tree) (place : Location) : Option Entry :=
  if place = [] then some .directory else tree.entries.lookup place

/-- Puts an entry where it belongs in alphabetical order, in place of one that is there. -/
def insertSorted (place : Location) (entry : Entry) :
    List (Location × Entry) → List (Location × Entry)
  | [] => [(place, entry)]
  | (other, old) :: rest =>
    if other = place then (place, entry) :: rest
    else if place < other then (place, entry) :: (other, old) :: rest
    else (other, old) :: insertSorted place entry rest

/-- Puts an entry at a location. -/
def insert (tree : Tree) (place : Location) (entry : Entry) : Tree :=
  { tree with entries := insertSorted place entry tree.entries }

/-! ## Following paths -/

/-- Follows the parts of a path from a location. -/
def follow (tree : Tree) : Location → List String → Except FileError Location
  | place, [] => .ok place
  | place, part :: rest =>
    match tree.find? place with
    | none => .error .notFound
    | some (.file _) => .error .notDirectory
    | some .directory =>
      if Path.isIdle part then tree.follow place rest
      else if part = ".." then tree.follow place.dropLast rest
      else if longestName < part.utf8ByteSize then .error .nameTooLong
      else if (tree.find? (place ++ [part])).isSome then tree.follow (place ++ [part]) rest
      else .error .notFound

/-- Where a path starts, and its parts. -/
def start (tree : Tree) (path : String) : Except FileError (Location × List String) :=
  if path.isEmpty then .error .notFound
  else if longestPath < path.utf8ByteSize then .error .nameTooLong
  else .ok (if Path.isAbsolute path then [] else tree.here, Path.parts path)

/-- The location that a path leads to. -/
def locate (tree : Tree) (path : String) : Except FileError Location := do
  let (origin, parts) ← tree.start path
  tree.follow origin parts

/-- What a path leads to. -/
def entry? (tree : Tree) (path : String) : Option Entry :=
  match tree.locate path with
  | .ok place => tree.find? place
  | .error _ => none

/-- The directory in which the last of some parts is to be found. -/
def followToLast (tree : Tree) (origin : Location) (parts : List String) :
    Except FileError Location :=
  match tree.follow origin parts.dropLast with
  | .error e => .error e
  | .ok place =>
    match tree.find? place with
    | some .directory => .ok place
    | some (.file _) => .error .notDirectory
    | none => .error .notFound

/-! ## Reading -/

/-- The bytes of a file. -/
def read (tree : Tree) (path : String) : Except FileError Payload := do
  let place ← tree.locate path
  match tree.find? place with
  | some (.file bytes) => .ok bytes
  | some .directory => .error .isDirectory
  | none => .error .notFound

/-- The names that lead from a location to what is below it, in alphabetical order. -/
def below (tree : Tree) (place : Location) : List Location :=
  tree.entries.filterMap fun (other, _) =>
    if place.isPrefixOf other && other != place then some (other.drop place.length) else none

/-! ## Changing -/

/-- The parts up to the last one that is not empty. -/
def dropSlashes (parts : List String) : List String := (parts.reverse.dropWhile (· == "")).reverse

/-- Makes a directory. Slashes at the end of the path do not count. -/
def makeDirectory (tree : Tree) (path : String) : Except FileError Tree := do
  let (origin, parts) ← tree.start path
  let parts := dropSlashes parts
  let above ← tree.followToLast origin parts
  match parts.getLast? with
  | none => .error .alreadyExists
  | some name =>
    if Path.isIdle name || name == ".." then .error .alreadyExists
    else if longestName < name.utf8ByteSize then .error .nameTooLong
    else if (tree.find? (above ++ [name])).isSome then .error .alreadyExists
    else .ok (tree.insert (above ++ [name]) .directory)

/-- Gives a file a new content. A path with a slash at its end stands for a directory. -/
def write (tree : Tree) (path : String) (text : String) : Except FileError Tree := do
  let (origin, parts) ← tree.start path
  let slashed := parts.getLast? == some ""
  let parts := dropSlashes parts
  let above ← tree.followToLast origin parts
  match parts.getLast? with
  | none => .error .isDirectory
  | some name =>
    if slashed || Path.isIdle name || name == ".." then .error .isDirectory
    else if longestName < name.utf8ByteSize then .error .nameTooLong
    else
      match tree.find? (above ++ [name]) with
      | some .directory => .error .isDirectory
      | _ => .ok (tree.insert (above ++ [name]) (.file text.toUTF8.data))

end Tree

/-- What a command finds around it. -/
structure Surroundings where
  tree : Tree
  /-- The bytes of standard input. -/
  input : Payload

instance : FileQueries (ReaderM Surroundings) where
  kind? path := fun world => (world.tree.entry? path).map Entry.kind
  read path := fun world => world.tree.read path
  children path := fun world =>
    match world.tree.locate path with
    | .ok place => (world.tree.below place).filterMap fun names =>
      match names with
      | [name] => some name
      | _ => none
    | .error _ => []
  descendants path := fun world =>
    match world.tree.locate path with
    | .ok place => world.tree.below place
    | .error _ => []
  same left right := fun world =>
    match world.tree.locate left, world.tree.locate right with
    | .ok place, .ok other => place == other
    | _, _ => false
  standardInput := fun world => world.input

/-- The outcome of a change that may fail and then leaves the tree as it is. -/
def Tree.change (attempt : Tree → Except FileError Tree) : StateM Tree (Except FileError Unit) :=
  fun tree =>
    match attempt tree with
    | .ok next => (.ok (), next)
    | .error e => (.error e, tree)

instance : FileChanges (StateM Tree) where
  makeDirectory path := Tree.change fun tree => tree.makeDirectory path
  isDirectory path := fun tree => ((tree.entry? path).map Entry.kind == some .directory, tree)
  write path text := Tree.change fun tree => tree.write path text

end BinaryLayout
