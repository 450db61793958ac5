import BinaryLayout.Layout.Decode
import BinaryLayout.Proofs.Mapping.Writes

/-!
# Parts of any kind of value

What the parts of a body make depends on their names and on how many values each of them has, and
not on what the values are.  To say so, this module makes arrays and records of any kind of value.

There are two groups.

* Bundles.  `GroupKind.assembleWith` makes one value of a body's bundles, given what stands for a
  row of values and for a table of named ones; a record is said by `Mapping.settled` and not by
  writing to it.  `assembleWith_map` lets a change of values through.
* Parts.  They are bundles of data, and `assemble_eq_assembleWith` says that the library makes of
  them what `assembleWith` does.
-/

namespace BinaryLayout

variable {α β : Type}

/-! ## Bundles -/

/-- Values under a name, or under none. -/
structure Bundle (α : Type) where
  name : Option String
  values : List α
deriving DecidableEq, Repr

namespace Bundle

/-- The same names over other values. -/
def map (f : α → β) (bundle : Bundle α) : Bundle β := ⟨bundle.name, bundle.values.map f⟩

/-- What stands for several values under one name: nothing for none, the value itself for one, and
their row for more. -/
def pack? (row : List α → α) : List α → Option α
  | [] => none
  | [value] => some value
  | values => some (row values)

/-- What a bundle writes to a record, if it has a name and any values. -/
def write? (row : List α → α) (bundle : Bundle α) : Option (String × α) :=
  bundle.name.bind fun name => (pack? row bundle.values).map (name, ·)

theorem flatMap_values_map (f : α → β) (bundles : List (Bundle α)) :
    (bundles.map (map f)).flatMap values = (bundles.flatMap values).map f := by
  rw [List.flatMap_map, List.map_flatMap]
  rfl

theorem pack?_map {row : List α → α} {row' : List β → β} {f : α → β}
    (hrow : ∀ values, f (row values) = row' (values.map f)) (values : List α) :
    pack? row' (values.map f) = (pack? row values).map f := by
  match values with
  | [] => rfl
  | [_] => rfl
  | first :: second :: more => exact congrArg some (hrow (first :: second :: more)).symm

theorem write?_map {row : List α → α} {row' : List β → β} {f : α → β}
    (hrow : ∀ values, f (row values) = row' (values.map f)) (bundle : Bundle α) :
    (bundle.map f).write? row' = (bundle.write? row).map fun write => (write.1, f write.2) := by
  obtain ⟨name, values⟩ := bundle
  cases name with
  | none => rfl
  | some name =>
    rw [map, write?, write?, Option.bind_some, Option.bind_some, pack?_map hrow, Option.map_map,
      Option.map_map]
    rfl

/-- The names under which bundles have values, as often as they come. -/
def suppliers (bundles : List (Bundle α)) : List String :=
  bundles.flatMap fun bundle => if bundle.values.length = 0 then [] else bundle.name.toList

/-- A bundle writes under its name, and not at all if it has no values. -/
theorem name_write? (row : List α → α) (bundle : Bundle α) :
    ((bundle.write? row).map (·.1)).toList =
      if bundle.values.length = 0 then [] else bundle.name.toList := by
  obtain ⟨name, values⟩ := bundle
  cases name with
  | none => simp [write?]
  | some name =>
    match values with
    | [] => rfl
    | [_] => rfl
    | _ :: _ :: _ => rfl

theorem names_writes (row : List α → α) (bundles : List (Bundle α)) :
    (bundles.filterMap (write? row)).map (·.1) = suppliers bundles := by
  induction bundles with
  | nil => rfl
  | cons bundle bundles ih =>
    rw [suppliers, List.flatMap_cons, ← name_write? row, ← suppliers, ← ih]
    cases hwrite : bundle.write? row with
    | none => rw [List.filterMap_cons_none hwrite]; rfl
    | some write => rw [List.filterMap_cons_some hwrite]; rfl

end Bundle

/-- What the bundles of a body make: an array is the row of all values, and a record the table of
the entries that are left when of several under one name the last one counts. -/
def GroupKind.assembleWith (row : List α → α) (table : Mapping α → α) :
    GroupKind → List (Bundle α) → α
  | .array, bundles => row (bundles.flatMap Bundle.values)
  | .record, bundles =>
    table (.ofEntries (Mapping.settled (bundles.filterMap (Bundle.write? row))))

/-- A change of values that keeps rows and tables goes through what bundles make. -/
theorem GroupKind.assembleWith_map {row : List α → α} {row' : List β → β} {table : Mapping α → α}
    {table' : Mapping β → β} {f : α → β} (hrow : ∀ values, f (row values) = row' (values.map f))
    (htable : ∀ fields, f (table fields) = table' (fields.map f)) (kind : GroupKind)
    (bundles : List (Bundle α)) :
    f (kind.assembleWith row table bundles) =
      kind.assembleWith row' table' (bundles.map (Bundle.map f)) := by
  cases kind with
  | array => rw [assembleWith, assembleWith, hrow, Bundle.flatMap_values_map]
  | record =>
    have hwrites : (bundles.map (Bundle.map f)).filterMap (Bundle.write? row') =
        (bundles.filterMap (Bundle.write? row)).map fun write => (write.1, f write.2) := by
      rw [List.filterMap_map, List.map_filterMap]
      apply List.filterMap_congr
      intro bundle _
      exact Bundle.write?_map hrow bundle
    rw [assembleWith, assembleWith, htable, hwrites, Mapping.ofEntries_settled,
      Mapping.ofEntries_settled, Mapping.map_ofList]

/-! ## Parts -/

/-- A part is a bundle of data. -/
def Part.bundle (part : Part) : Bundle Datum := ⟨part.name, part.data⟩

theorem Part.pack?_eq (data : List Datum) : Part.pack? data = Bundle.pack? .sequence data := by
  match data with
  | [] => rfl
  | [_] => rfl
  | _ :: _ :: _ => rfl

/-- To store a part is to write what its bundle writes. -/
theorem Part.store_eq (fields : Mapping Datum) (part : Part) :
    store fields part =
      (part.bundle.write? .sequence).elim fields fun write => fields.insert write.1 write.2 := by
  obtain ⟨name, data⟩ := part
  cases name with
  | none => rfl
  | some name =>
    rw [store, bundle, Bundle.write?, Option.bind_some, pack?_eq]
    cases Bundle.pack? .sequence data with
    | none => rfl
    | some datum => rfl

/-- To store parts is to write what their bundles write. -/
theorem Part.foldl_store (parts : List Part) (fields : Mapping Datum) :
    parts.foldl store fields =
      ((parts.map bundle).filterMap (Bundle.write? .sequence)).foldl
        (fun m (key, value) => m.insert key value) fields := by
  induction parts generalizing fields with
  | nil => rfl
  | cons part parts ih =>
    rw [List.foldl_cons, ih, store_eq, List.map_cons]
    cases hwrite : part.bundle.write? .sequence with
    | none => rw [List.filterMap_cons_none hwrite, Option.elim_none]
    | some write => rw [List.filterMap_cons_some hwrite, Option.elim_some, List.foldl_cons]

/-- The library makes of a body's parts what is said of bundles. -/
theorem GroupKind.assemble_eq_assembleWith (kind : GroupKind) (parts : List Part) :
    kind.assemble parts = kind.assembleWith .sequence .mapping (parts.map Part.bundle) := by
  cases kind with
  | array =>
    rw [assemble, assembleWith, Part.flatten, List.flatMap_map]
    rfl
  | record => rw [assemble, assembleWith, Part.record, Part.foldl_store, Mapping.ofEntries_settled,
      Mapping.ofList]

end BinaryLayout
