import BinaryLayout.Token

/-!
# Layouts

A layout is what a format says once it has been read: fields and groups in order, each under its
field name if it stands directly inside a record. The number of data that a run yields and the
depth of the groups follow from the layout alone.
-/

namespace BinaryLayout

/-- A list of fields and groups. Each constructor but the first holds one of them and the rest. -/
inductive Layout where
  | done
  | field (name : Option String) (f : Field) (count : Nat) (rest : Layout)
  | group (name : Option String) (kind : GroupKind) (count : Nat) (body rest : Layout)
deriving DecidableEq, Repr

namespace Layout

/-- One layout after the other. -/
def append : Layout → Layout → Layout
  | .done, m => m
  | .field name f count rest, m => .field name f count (rest.append m)
  | .group name kind count body rest, m => .group name kind count body (rest.append m)

instance : Append Layout := ⟨append⟩

/-- The number of fields and groups, those inside groups apart. -/
def length : Layout → Nat
  | .done => 0
  | .field _ _ _ rest => rest.length + 1
  | .group _ _ _ _ rest => rest.length + 1

/-- The number of groups that stand inside one another at the deepest place. -/
def depth : Layout → Nat
  | .done => 0
  | .field _ _ _ rest => rest.depth
  | .group _ _ _ body rest => max (body.depth + 1) rest.depth

/-- The number of data that one run yields, groups and all their repeats included, reckoned in
counts: it stops at `Count.greatest`. -/
def yield : Layout → Nat
  | .done => 0
  | .field _ f count rest => Count.add (f.yield count) rest.yield
  | .group _ _ count body rest =>
    Count.add (Count.mul count (Count.add body.yield 1)) rest.yield

/-- The number of data is a count. -/
theorem yield_le_greatest (layout : Layout) : layout.yield ≤ Count.greatest := by
  cases layout with
  | done => exact Nat.zero_le _
  | field => exact Nat.min_le_right _ _
  | group => exact Nat.min_le_right _ _

end Layout

end BinaryLayout
