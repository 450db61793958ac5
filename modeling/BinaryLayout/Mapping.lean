/-!
# Mappings

A mapping holds named values in the order in which their names first came. Writing to a name that
is present replaces its value where it stands.
-/

namespace BinaryLayout

/-- Named values in order. -/
inductive Mapping (α : Type) where
  | empty
  | entry (key : String) (value : α) (rest : Mapping α)
deriving Repr

namespace Mapping

variable {α : Type}

/-- The names and values in order. -/
def toList : Mapping α → List (String × α)
  | .empty => []
  | .entry key value rest => (key, value) :: rest.toList

/-- The names in order. -/
def keys (m : Mapping α) : List String := m.toList.map (·.1)

/-- The number of names. -/
def size (m : Mapping α) : Nat := m.toList.length

/-- Whether there is no name. -/
def isEmpty (m : Mapping α) : Bool := m.size == 0

/-- The value under `key`. -/
def get? (m : Mapping α) (key : String) : Option α := m.toList.lookup key

/-- Puts `value` under `key`: in place of the value that stands there, or at the end. -/
def insert (key : String) (value : α) : Mapping α → Mapping α
  | .empty => .entry key value .empty
  | .entry k v rest =>
    if k = key then .entry key value rest else .entry k v (rest.insert key value)

/-- The mapping that results when the pairs are put in one after the other. -/
def ofList (pairs : List (String × α)) : Mapping α :=
  pairs.foldl (fun m (key, value) => m.insert key value) .empty

end Mapping

end BinaryLayout
