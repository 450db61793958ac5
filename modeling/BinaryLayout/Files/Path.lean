/-!
# Paths

A path is a text in which slashes stand between names. Empty parts and dots between the slashes
lead nowhere, except that a dot in front is kept: it is a path of its own. The ancestors of a path
are written as they stand in it, with what leads nowhere cut off at their end.
-/

namespace BinaryLayout.Path

/-- The parts of a text between its slashes, one more than there are slashes. -/
def split : List Char → List (List Char)
  | [] => [[]]
  | c :: rest =>
    if c = '/' then [] :: split rest
    else
      match split rest with
      | [] => [[c]]
      | part :: parts => (c :: part) :: parts

/-- The parts of a path between its slashes. -/
def parts (path : String) : List String := (split path.toList).map String.ofList

/-- Every path has parts, the empty one too. -/
theorem parts_ne_nil (path : String) : parts path ≠ [] := by
  have hsplit (text : List Char) : split text ≠ [] := by
    fun_cases split text <;> simp_all
  rw [parts, ne_eq, List.map_eq_nil_iff]
  exact hsplit path.toList

/-- Whether a part leads nowhere. -/
def isIdle (part : String) : Bool := part == "" || part == "."

/-- What a path begins with, the root or the working directory if it names one of them, and the
parts behind that. -/
def anchor (path : String) : String × List String :=
  match path.toList with
  | '/' :: rest => ("/", (split rest).map String.ofList)
  | ['.'] => (".", [])
  | '.' :: '/' :: rest => (".", (split ('/' :: rest)).map String.ofList)
  | _ => ("", parts path)

/-- Whether a path begins at the root. -/
def isAbsolute (path : String) : Bool := (anchor path).1 == "/"

/-- Whether a path is the dot alone, perhaps with more that leads nowhere. -/
def isHere (path : String) : Bool := (anchor path).1 == "." && (anchor path).2.all isIdle

/-- For each part that leads somewhere what stands before it, the longest first; all parts in
reverse. -/
def prefixes : List String → List (List String)
  | [] => []
  | part :: before =>
    if isIdle part then prefixes before else before.dropWhile isIdle :: prefixes before

/-- The paths above a path, the nearest first. That of a single name is the empty path, and the
root has none. -/
def ancestors (path : String) : List String :=
  let (start, rest) := anchor path
  let above := (prefixes rest.reverse).map fun before =>
    start ++ String.intercalate "/" before.reverse
  if start == "." then above ++ [""] else above

/-- The path of `name` under `path`. -/
def join (path name : String) : String :=
  if path.isEmpty || path.toList.getLast? == some '/' then path ++ name else path ++ "/" ++ name

end BinaryLayout.Path
