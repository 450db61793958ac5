import BinaryLayout.Files.Access
import BinaryLayout.Glob.Pattern

/-!
# What a pattern stands for

A pattern stands for the paths of the files and directories that its parts lead to, in
alphabetical order part by part. A literal part is looked up and no directory is listed for it.
A dot and two dots are found by a literal part, or by one that begins with a dot.
-/

namespace BinaryLayout.Glob

variable {m : Type → Type} [Monad m] [FileQueries m]

/-- Whether a path leads to a directory. -/
def isDirectory (path : String) : m Bool := do
  return (← FileQueries.kind? path) == some .directory

/-- The path of a name under a path. In the working directory a name stands alone. -/
def under (path name : String) : String :=
  if Path.isHere path then name else Path.join path name

/-- The dots that some elements stand for: there have to be elements that begin with a dot. -/
def dots (tokens : List Token) : List String :=
  if tokens.head? = some (.char '.') then
    ["..", "."].filter fun name => matchesName tokens name.toList
  else []

/-- Whether a name is found under a path. The dots are found under every directory. -/
def isThere (path name : String) : m Bool := do
  if name = "." ∨ name = ".." then isDirectory path
  else return (← FileQueries.kind? (under path name)).isSome

/-- The paths that the parts of a pattern lead to from a path. -/
def expandParts (directoriesOnly : Bool) : List Part → String → m (List String)
  | [], path => do
    if directoriesOnly then
      return if ← isDirectory path then [path] else []
    else return [path]
  | .literal name :: parts, path => do
    if ← isThere path name then expandParts directoriesOnly parts (under path name) else return []
  | .names tokens :: parts, path => do
    if ← isDirectory path then
      let names := (← FileQueries.children path).filter fun name => matchesName tokens name.toList
      let next := (dots tokens).map (Path.join path) ++ names.map (under path)
      next.flatMapM fun path => expandParts directoriesOnly parts path
    else return []
  | [.anyDepth], path => do
    if ← isDirectory path then
      let found := (← FileQueries.descendants path).map (List.foldl under path)
      found.filterM isDirectory
    else return []
  | .anyDepth :: part :: parts, path => do
    if ← isDirectory path then
      let found := (← FileQueries.descendants path).filter fun names =>
        part.matchesName (names.getLast?.getD "")
      (found.map (List.foldl under path)).flatMapM fun path =>
        expandParts directoriesOnly parts path
    else return []

/-- The paths that a pattern stands for. -/
def Pattern.expand (pattern : Pattern) : m (List String) :=
  if pattern.parts.isEmpty then return []
  else expandParts pattern.directoriesOnly pattern.parts (if pattern.absolute then "/" else ".")

end BinaryLayout.Glob
