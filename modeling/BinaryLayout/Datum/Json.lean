import BinaryLayout.Datum
import BinaryLayout.Json.Numeral
import BinaryLayout.Json.Printer

/-!
# Decoded data as JSON

Integers are written in full, sequences become lists and mappings become objects with their
members in the same order.
-/

namespace BinaryLayout

/-- The JSON number of a decoded number; null if it is no number. -/
def Number.toJson : Number → Json
  | .unsigned n => .ofNat n.toNat
  | .signed n => .ofInt n.toInt
  | .float x => .ofBinary64 x

namespace Datum

mutual

/-- The plain data of a tree. -/
def toJson : Datum → Json
  | .number n => n.toJson
  | .text s => .string s
  | .sequence items => .list (itemsToJson items)
  | .mapping fields => .object (fieldsToJson fields)

/-- The plain data of each item. -/
def itemsToJson : List Datum → List Json
  | [] => []
  | item :: items => item.toJson :: itemsToJson items

/-- The plain data of each field, under the same name. -/
def fieldsToJson : Mapping Datum → Mapping Json
  | .empty => .empty
  | .entry key value fields => .entry key value.toJson (fieldsToJson fields)

end

/-- The JSON text of a list of trees. -/
def printAll (spacing : Json.Spacing) (values : List Datum) : String :=
  (Json.list (itemsToJson values)).print spacing

end Datum

end BinaryLayout
