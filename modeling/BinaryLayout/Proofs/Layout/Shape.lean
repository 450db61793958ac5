import BinaryLayout.Format
import BinaryLayout.Proofs.Accounting.Values
import BinaryLayout.Proofs.Layout.Bundles
import BinaryLayout.Proofs.Runs.Visits

/-!
# The shape of decoded data

The shape of what a format decodes is in the format: how many values there are, what kind of node
each of them is, how long sequences are and which names a mapping has, in order.  Bytes only decide
what the leaves hold, and even there each number is of the kind that its field reads, except where
the payload does not hold all of its bytes.

There are five groups.

* Kinds of numbers.  `NumberField.tag` is the kind that a field reads.
* Shapes.  A `Shape` is a datum without its texts and with any kind of label in place of a number.
  `Datum.shape` keeps the numbers as labels, and `Shape.outline` keeps no labels.
* Shapes of layouts.  `Layout.shapes` is computed from the layout alone, and `keys_recordShape` says
  which names a record has.
* Sites.  `Layout.sites` is the same shape with the place of each number in a given run.
  `map_field_sites` and `map_shape_run` look at it from both sides: it is the layout's shape when
  places are left out, and the shape of the run's data when they are read.
* Formats.  `shape_decode` puts these together.
-/

namespace BinaryLayout

/-! ## Kinds of numbers -/

/-- How a number was read. -/
inductive NumberTag where
  | unsigned
  | signed
  | float
deriving DecidableEq, Repr

/-- How the number was read. -/
def Number.tag : Number → NumberTag
  | .unsigned _ => .unsigned
  | .signed _ => .signed
  | .float _ => .float

/-- How integers with or without a sign are read. -/
def Signedness.tag : Signedness → NumberTag
  | .unsigned => .unsigned
  | .signed => .signed

/-- How the field reads its number. -/
def NumberField.tag : NumberField → NumberTag
  | .byte sign => sign.tag
  | .word sign _ _ => sign.tag
  | .real _ _ => .float

theorem Signedness.tag_number (sign : Signedness) (width n : Nat) :
    (sign.number width n).tag = sign.tag := by
  cases sign with
  | unsigned => rfl
  | signed => rfl

theorem NumberField.tag_ofBytes (field : NumberField) (found : List UInt8) :
    (field.ofBytes found).tag = field.tag := by
  cases field with
  | byte sign => exact sign.tag_number 1 _
  | word sign size order => exact sign.tag_number size.bytes _
  | real precision order =>
    cases precision with
    | single => rfl
    | double => rfl

/-- A number field at a place of the payload. -/
structure NumberSite where
  field : NumberField
  place : Position
deriving DecidableEq, Repr

namespace NumberSite

/-- The number that is read there. -/
def read (bytes : Payload) (site : NumberSite) : Number := (site.field.read bytes site.place).1

/-- The payload holds all bytes of the field. -/
def Held (bytes : Payload) (site : NumberSite) : Prop :=
  0 ≤ site.place ∧ site.place + site.field.width ≤ bytes.size

instance (bytes : Payload) (site : NumberSite) : Decidable (site.Held bytes) :=
  inferInstanceAs (Decidable (_ ∧ _))

theorem tag_read {bytes : Payload} {site : NumberSite} (h : site.Held bytes) :
    (site.read bytes).tag = site.field.tag := by
  have hfound : ∃ found, bytes.take? site.place site.field.width = some found := ⟨_, if_pos h⟩
  obtain ⟨found, hfound⟩ := hfound
  rw [read, NumberField.read, hfound]
  exact site.field.tag_ofBytes found

theorem read_of_not_held {bytes : Payload} {site : NumberSite} (h : ¬ site.Held bytes) :
    site.read bytes = .float .nan := by
  have hmissing : bytes.take? site.place site.field.width = none := if_neg h
  rw [read, NumberField.read, hmissing]
  rfl

end NumberSite

/-! ## Shapes -/

/-- A datum without its texts, and with labels in place of its numbers. -/
inductive Shape (ν : Type) where
  | number (label : ν)
  | text
  | sequence (items : List (Shape ν))
  | mapping (fields : Mapping (Shape ν))
deriving Repr

namespace Shape

variable {μ ν ξ : Type}

mutual

/-- The same shape with other labels. -/
def map (f : μ → ν) : Shape μ → Shape ν
  | .number label => .number (f label)
  | .text => .text
  | .sequence items => .sequence (mapItems f items)
  | .mapping fields => .mapping (mapFields f fields)

def mapItems (f : μ → ν) : List (Shape μ) → List (Shape ν)
  | [] => []
  | item :: items => item.map f :: mapItems f items

def mapFields (f : μ → ν) : Mapping (Shape μ) → Mapping (Shape ν)
  | .empty => .empty
  | .entry name shape rest => .entry name (shape.map f) (mapFields f rest)

end

/-- The shape without its labels. -/
def outline (shape : Shape ν) : Shape Unit := shape.map fun _ => ()

theorem mapItems_eq (f : μ → ν) (items : List (Shape μ)) :
    mapItems f items = items.map (map f) := by
  induction items with
  | nil => rfl
  | cons item items ih => rw [mapItems, ih, List.map_cons]

theorem mapFields_eq (f : μ → ν) (fields : Mapping (Shape μ)) :
    mapFields f fields = fields.map (map f) := by
  induction fields with
  | empty => rfl
  | entry name shape rest ih => rw [mapFields, ih, Mapping.map]

theorem map_sequence (f : μ → ν) (items : List (Shape μ)) :
    map f (.sequence items) = .sequence (items.map (map f)) := by
  rw [map, mapItems_eq]

theorem map_mapping (f : μ → ν) (fields : Mapping (Shape μ)) :
    map f (.mapping fields) = .mapping (fields.map (map f)) := by
  rw [map, mapFields_eq]

mutual

theorem map_map (g : ν → ξ) (f : μ → ν) : (shape : Shape μ) →
    (shape.map f).map g = shape.map (g ∘ f)
  | .number _ => rfl
  | .text => rfl
  | .sequence items => congrArg Shape.sequence (mapItems_map g f items)
  | .mapping fields => congrArg Shape.mapping (mapFields_map g f fields)

theorem mapItems_map (g : ν → ξ) (f : μ → ν) : (items : List (Shape μ)) →
    mapItems g (mapItems f items) = mapItems (g ∘ f) items
  | [] => rfl
  | item :: items => congrArg₂ List.cons (map_map g f item) (mapItems_map g f items)

theorem mapFields_map (g : ν → ξ) (f : μ → ν) : (fields : Mapping (Shape μ)) →
    mapFields g (mapFields f fields) = mapFields (g ∘ f) fields
  | .empty => rfl
  | .entry name shape rest =>
    congrArg₂ (Mapping.entry name) (map_map g f shape) (mapFields_map g f rest)

end

theorem outline_map (f : μ → ν) (shape : Shape μ) : (shape.map f).outline = shape.outline :=
  map_map _ f shape

/-- What the bundles of a body make keeps its shape under other labels. -/
theorem map_assembleWith (f : μ → ν) (kind : GroupKind) (bundles : List (Bundle (Shape μ))) :
    map f (kind.assembleWith .sequence .mapping bundles) =
      kind.assembleWith .sequence .mapping (bundles.map (Bundle.map (map f))) :=
  kind.assembleWith_map (map_sequence f) (map_mapping f) bundles

end Shape

namespace Datum

mutual

/-- The datum without its texts. -/
def shape : Datum → Shape Number
  | .number n => .number n
  | .text _ => .text
  | .sequence items => .sequence (shapesOf items)
  | .mapping fields => .mapping (shapesUnder fields)

def shapesOf : List Datum → List (Shape Number)
  | [] => []
  | item :: items => item.shape :: shapesOf items

def shapesUnder : Mapping Datum → Mapping (Shape Number)
  | .empty => .empty
  | .entry name datum rest => .entry name datum.shape (shapesUnder rest)

end

/-- The datum without its texts and numbers: what kind of node each of its nodes is, how long its
sequences are, and the names of its mappings in order. -/
def outline (datum : Datum) : Shape Unit := datum.shape.outline

theorem shapesOf_eq (items : List Datum) : shapesOf items = items.map shape := by
  induction items with
  | nil => rfl
  | cons item items ih => rw [shapesOf, ih, List.map_cons]

theorem shapesUnder_eq (fields : Mapping Datum) : shapesUnder fields = fields.map shape := by
  induction fields with
  | empty => rfl
  | entry name datum rest ih => rw [shapesUnder, ih, Mapping.map]

theorem shape_sequence (items : List Datum) :
    shape (.sequence items) = .sequence (items.map shape) := by
  rw [shape, shapesOf_eq]

theorem shape_mapping (fields : Mapping Datum) :
    shape (.mapping fields) = .mapping (fields.map shape) := by
  rw [shape, shapesUnder_eq]

end Datum

/-! ## Shapes of layouts -/

/-- The shapes that a field with its count yields. -/
def Field.shapes (count : Nat) : Field → List (Shape NumberField)
  | .number field => List.replicate count (.number field)
  | .text _ => [.text]
  | .terminated => List.replicate count .text
  | .move _ => []

theorem Field.length_shapes (f : Field) (count : Nat) :
    (f.shapes count).length = f.yield count := by
  cases f with
  | number field => exact List.length_replicate
  | text field => rfl
  | terminated => exact List.length_replicate
  | move step => rfl

namespace Layout

/-- The shapes that each field and each group yields, under its name. -/
def shapes : Layout → List (Bundle (Shape NumberField))
  | .done => []
  | .field name f count rest => ⟨name, f.shapes count⟩ :: rest.shapes
  | .group name kind count body rest =>
    ⟨name, List.replicate count (kind.assembleWith .sequence .mapping body.shapes)⟩ :: rest.shapes

/-- The shape of what the layout decodes. -/
def shape (layout : Layout) : List (Shape NumberField) := layout.shapes.flatMap Bundle.values

/-- The fields of the mapping that stands for a record with this body. -/
def recordShape (body : Layout) : Mapping (Shape NumberField) :=
  .ofEntries (Mapping.settled (body.shapes.filterMap (Bundle.write? .sequence)))

theorem suppliers_shapes (layout : Layout) : Bundle.suppliers layout.shapes = layout.suppliers := by
  induction layout with
  | done => rfl
  | field name f count rest ih =>
    rw [shapes, Bundle.suppliers, List.flatMap_cons, ← Bundle.suppliers, ih, suppliers,
      Field.length_shapes]
  | group name kind count body rest _ ihRest =>
    rw [shapes, Bundle.suppliers, List.flatMap_cons, ← Bundle.suppliers, ihRest, suppliers,
      List.length_replicate]

/-- A record has the names of its fields that yield any value, in the order in which they first
come. -/
theorem keys_recordShape (body : Layout) : body.recordShape.keys = body.suppliers.eraseDups := by
  rw [recordShape, Mapping.ofEntries_settled, Mapping.keys_ofList, Bundle.names_writes,
    suppliers_shapes]

/-- A field that comes to nothing gives no name, and one that comes again keeps its place. -/
example :
    let byte : Field := .number (.byte .unsigned)
    (recordShape (.field (some "a") byte 0 (.field (some "b") byte 1 (.field (some "a") byte 2
      (.field (some "b") .terminated 3 .done))))).keys = ["b", "a"] := by
  decide +kernel

end Layout

/-! ## Sites -/

/-- The shapes that a field with its count yields at `p`, with the place of each number. -/
def Field.sites (bytes : Payload) (count : Nat) (p : Position) : Field → List (Shape NumberSite)
  | .number field => (starts (field.read bytes) count p).map fun q => .number ⟨field, q⟩
  | .text _ => [.text]
  | .terminated => List.replicate count .text
  | .move _ => []

theorem Field.map_field_sites (bytes : Payload) (f : Field) (count : Nat) (p : Position) :
    (f.sites bytes count p).map (Shape.map NumberSite.field) = f.shapes count := by
  cases f with
  | number field =>
    rw [sites, shapes, List.map_map]
    simp only [Function.comp_def, Shape.map, List.map_const', length_starts]
  | text field => rfl
  | terminated => exact List.map_replicate
  | move step => rfl

theorem Field.map_shape_read (bytes : Payload) (f : Field) (count : Nat) (p : Position) :
    (f.read count bytes p).1.map Datum.shape =
      (f.sites bytes count p).map (Shape.map (NumberSite.read bytes)) := by
  cases f with
  | number field =>
    have hstarts := starts_map (field.read bytes) Datum.number count p
    rw [Field.read, sites, fst_readTimes, List.map_map, List.map_map]
    exact congrArg (List.map _) hstarts
  | text field => rfl
  | terminated =>
    rw [Field.read, sites, fst_readTimes, List.map_map, List.map_replicate]
    simp only [Function.comp_def, Datum.shape, Shape.map, List.map_const', length_starts]
  | move step => rfl

namespace Layout

/-- The shapes that each field and each group yields when a run starts at `p`, with the place of
each number. -/
def sites (bytes : Payload) : Layout → Position → List (Bundle (Shape NumberSite))
  | .done, _ => []
  | .field name f count rest, p =>
    ⟨name, f.sites bytes count p⟩ :: rest.sites bytes (f.read count bytes p).2
  | .group name kind count body rest, p =>
    ⟨name, (starts (readGroup bytes kind body) count p).map fun q =>
        kind.assembleWith .sequence .mapping (body.sites bytes q)⟩ ::
      rest.sites bytes (readTimes (readGroup bytes kind body) count p).2

/-- Without the places the sites are the shapes of the layout. -/
theorem map_field_sites (bytes : Payload) (layout : Layout) (p : Position) :
    (layout.sites bytes p).map (Bundle.map (Shape.map NumberSite.field)) = layout.shapes := by
  induction layout generalizing p with
  | done => rfl
  | field name f count rest ih =>
    rw [sites, List.map_cons, ih, Bundle.map, Field.map_field_sites, shapes]
  | group name kind count body rest ihBody ihRest =>
    have hgroup : ∀ q, Shape.map NumberSite.field
        (kind.assembleWith .sequence .mapping (body.sites bytes q)) =
          kind.assembleWith .sequence .mapping body.shapes := by
      intro q
      rw [Shape.map_assembleWith, ihBody]
    rw [sites, List.map_cons, ihRest, Bundle.map, List.map_map, shapes]
    simp only [Function.comp_def, hgroup, List.map_const', length_starts]

/-- Read in the payload the sites are the shapes of what the run yields. -/
theorem map_shape_run (bytes : Payload) (layout : Layout) (p : Position) :
    ((layout.run bytes p).1.map Part.bundle).map (Bundle.map Datum.shape) =
      (layout.sites bytes p).map (Bundle.map (Shape.map (NumberSite.read bytes))) := by
  induction layout generalizing p with
  | done => rfl
  | field name f count rest ih =>
    rw [run_field, sites, List.map_cons, List.map_cons, List.map_cons, ih, Part.bundle, Bundle.map,
      Bundle.map, Field.map_shape_read]
  | group name kind count body rest ihBody ihRest =>
    have hgroup : ∀ q, (readGroup bytes kind body q).1.shape = Shape.map (NumberSite.read bytes)
        (kind.assembleWith .sequence .mapping (body.sites bytes q)) := by
      -- both sides are made of the body's bundles: the data on the left, the sites on the right
      intro q
      rw [readGroup, kind.assemble_eq_assembleWith,
        kind.assembleWith_map Datum.shape_sequence Datum.shape_mapping, ihBody,
        Shape.map_assembleWith]
    rw [run_group, sites, List.map_cons, List.map_cons, List.map_cons, ihRest, Part.bundle,
      Bundle.map, Bundle.map, fst_readTimes, List.map_map, List.map_map]
    simp only [Function.comp_def, hgroup]

end Layout

/-! ## Formats -/

namespace Format

/-- The shape of what the format decodes from `offset` on, with the place of each number. -/
def sites (format : Format) (bytes : Payload) (offset : Int) : List (Shape NumberSite) :=
  (format.layout.sites bytes (Position.ofOffset offset)).flatMap Bundle.values

theorem map_field_sites (format : Format) (bytes : Payload) (offset : Int) :
    (format.sites bytes offset).map (Shape.map NumberSite.field) = format.layout.shape := by
  rw [sites, ← Bundle.flatMap_values_map, Layout.map_field_sites, Layout.shape]

theorem map_shape_decode (format : Format) (bytes : Payload) (offset : Int) :
    (format.decode bytes offset).map Datum.shape =
      (format.sites bytes offset).map (Shape.map (NumberSite.read bytes)) := by
  have hparts : format.decode bytes offset =
      ((format.layout.run bytes (Position.ofOffset offset)).1.map Part.bundle).flatMap
        Bundle.values := by
    rw [List.flatMap_map]
    rfl
  rw [hparts, sites, ← Bundle.flatMap_values_map, ← Bundle.flatMap_values_map,
    Layout.map_shape_run]

/-- The outline of what a format decodes is the one of its layout. -/
theorem map_outline_decode (format : Format) (bytes : Payload) (offset : Int) :
    (format.decode bytes offset).map Datum.outline = format.layout.shape.map Shape.outline := by
  calc (format.decode bytes offset).map Datum.outline
      = ((format.decode bytes offset).map Datum.shape).map Shape.outline := by
        rw [List.map_map]
        rfl
    _ = (format.sites bytes offset).map Shape.outline := by
        rw [map_shape_decode, List.map_map]
        exact List.map_congr_left fun site _ => site.outline_map _
    _ = format.layout.shape.map Shape.outline := by
        rw [← map_field_sites format bytes offset, List.map_map]
        exact List.map_congr_left fun site _ => (site.outline_map _).symm

/-- **The shape of what a format decodes is fixed by the format.**

Whatever the bytes are and wherever decoding starts, the data have one outline, and it is the one
computed from the layout.  Their numbers are those read at the sites of the run, and the fields at
these sites are those of the layout.  Every such reading is of the kind that its field reads if the
payload holds all of its bytes, and a NaN otherwise.  A record has the names of its fields that
yield any value, in the order in which they first come. -/
theorem shape_decode (format : Format) (bytes : Payload) (offset : Int) :
    (∀ (other : Payload) (place : Int),
      (format.decode other place).map Datum.outline =
        (format.decode bytes offset).map Datum.outline) ∧
    (format.decode bytes offset).map Datum.outline = format.layout.shape.map Shape.outline ∧
    (format.decode bytes offset).map Datum.shape =
      (format.sites bytes offset).map (Shape.map (NumberSite.read bytes)) ∧
    (format.sites bytes offset).map (Shape.map NumberSite.field) = format.layout.shape ∧
    (∀ site : NumberSite,
      if site.Held bytes then (site.read bytes).tag = site.field.tag
      else site.read bytes = .float .nan) ∧
    ∀ body : Layout,
      GroupKind.record.assembleWith .sequence .mapping body.shapes = .mapping body.recordShape ∧
        body.recordShape.keys = body.suppliers.eraseDups := by
  have hsites : ∀ site : NumberSite,
      if site.Held bytes then (site.read bytes).tag = site.field.tag
      else site.read bytes = .float .nan := by
    intro site
    split
    · next h => exact NumberSite.tag_read h
    · next h => exact NumberSite.read_of_not_held h
  refine ⟨?_, map_outline_decode format bytes offset, map_shape_decode format bytes offset,
    map_field_sites format bytes offset, hsites, fun body => ⟨rfl, body.keys_recordShape⟩⟩
  intro other place
  rw [map_outline_decode, map_outline_decode]

end Format

end BinaryLayout
