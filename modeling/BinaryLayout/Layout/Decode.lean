import BinaryLayout.Layout.Basic

/-!
# Decoding by a layout

A run takes the fields and groups of a layout in order, each from the position where the one
before ended. A part is what one of them yields, under its name. The parts of a group's body make
one datum: the data of an array stand in a sequence, and those of a record under their names.
-/

namespace BinaryLayout

/-- The data that one field or group yields, all its repeats included, and its name. -/
structure Part where
  name : Option String
  data : List Datum

namespace Part

/-- The data of all parts in order. -/
def flatten (parts : List Part) : List Datum := parts.flatMap data

/-- What stands for several data under one name: nothing for none, the datum itself for one, and
their sequence for more. -/
def pack? : List Datum → Option Datum
  | [] => none
  | [datum] => some datum
  | data => some (.sequence data)

/-- Puts a part into a record. A part without a name or without data changes nothing. -/
def store (fields : Mapping Datum) (part : Part) : Mapping Datum :=
  match part.name, pack? part.data with
  | some name, some datum => fields.insert name datum
  | _, _ => fields

/-- The record that parts make: of two parts of one name that yield data the later one counts. -/
def record (parts : List Part) : Mapping Datum := parts.foldl store .empty

end Part

/-- The datum that the parts of a body make. -/
def GroupKind.assemble : GroupKind → List Part → Datum
  | .array, parts => .sequence (Part.flatten parts)
  | .record, parts => .mapping (Part.record parts)

namespace Layout

/-- Runs a layout from `p` on: the parts in order, and the position behind them. -/
def run (bytes : Payload) : Layout → Position → List Part × Position
  | .done, p => ([], p)
  | .field name f count rest, p =>
    let (data, q) := f.read count bytes p
    let (parts, r) := rest.run bytes q
    (⟨name, data⟩ :: parts, r)
  | .group name kind count body rest, p =>
    let (data, q) :=
      readTimes (fun p => let (parts, q) := body.run bytes p; (kind.assemble parts, q)) count p
    let (parts, r) := rest.run bytes q
    (⟨name, data⟩ :: parts, r)

/-- Reads a group once: the datum that its body makes, and the position behind it. -/
def readGroup (bytes : Payload) (kind : GroupKind) (body : Layout) (p : Position) :
    Datum × Position :=
  (kind.assemble (body.run bytes p).1, (body.run bytes p).2)

theorem run_field (bytes : Payload) (name : Option String) (f : Field) (count : Nat)
    (rest : Layout) (p : Position) :
    run bytes (.field name f count rest) p =
      (⟨name, (f.read count bytes p).1⟩ :: (rest.run bytes (f.read count bytes p).2).1,
        (rest.run bytes (f.read count bytes p).2).2) := rfl

theorem run_group (bytes : Payload) (name : Option String) (kind : GroupKind) (count : Nat)
    (body rest : Layout) (p : Position) :
    run bytes (.group name kind count body rest) p =
      (⟨name, (readTimes (readGroup bytes kind body) count p).1⟩ ::
          (rest.run bytes (readTimes (readGroup bytes kind body) count p).2).1,
        (rest.run bytes (readTimes (readGroup bytes kind body) count p).2).2) := rfl

/-- The data that `bytes` hold from `offset` on. -/
def decode (layout : Layout) (bytes : Payload) (offset : Int) : List Datum :=
  Part.flatten (layout.run bytes (Position.ofOffset offset)).1

end Layout

end BinaryLayout
