import BinaryLayout.Proofs.Encoding.Number
import BinaryLayout.Proofs.Encoding.Payload
import BinaryLayout.Proofs.Encoding.Text

/-!
# Reading back fields

The bytes of a field are those of its values in order, and wherever a payload holds them the field
reads the values back and ends behind them.

* Values.  `Field.Admits` says what one value of a field can be, and `Field.encodeValue` gives its
  bytes.  `Field.Fits` and `Field.encode` are about all values of a field with its count.
* Readings.  There is one lemma for each kind of field that reads something, and
  `Field.recovers_encode` is what they come to.
-/

namespace BinaryLayout.Field

/-! ## Values -/

/-- Whether the field moves the position and reads nothing. -/
def isMove : Field → Bool
  | .move _ => true
  | _ => false

/-- Whether a datum can be one of the field's values. -/
def Admits : Field → Nat → Datum → Prop
  | .number field, _, .number n => field.Fits n
  | .text field, width, .text s => field.Fits width s.toList
  | .terminated, _, .text s => '\x00' ∉ s.toList
  | _, _, _ => False

/-- Whether data can be all of the field's values. -/
def Fits (f : Field) (count : Nat) (values : List Datum) : Prop :=
  values.length = f.yield count ∧ ∀ value ∈ values, f.Admits count value

/-- The bytes of one value. -/
def encodeValue : Field → Nat → Datum → List UInt8
  | .number field, _, .number n => field.encode n
  | .text field, width, .text s => field.encode width s.toList
  | .terminated, _, .text s => Utf8.encode s.toList ++ [0]
  | _, _, _ => []

/-- The bytes of all values in order. -/
def encode (f : Field) (count : Nat) (values : List Datum) : List UInt8 :=
  values.flatMap (f.encodeValue count)

/-! ## Readings -/

variable {bytes : Payload}

theorem recovers_number (hsize : (bytes.size : Int) ≤ Position.highest) {field : NumberField}
    {n : Number} (h : field.Fits n) : Recovers bytes (field.read bytes) n (field.encode n) := by
  intro p hp
  have hfound := hp.take?
  have hstop := hp.advance hsize
  rw [NumberField.length_encode] at hfound hstop ⊢
  rw [NumberField.read, hfound, hstop]
  dsimp only
  rw [NumberField.ofBytes_encode h]

theorem recovers_text (hsize : (bytes.size : Int) ≤ Position.highest) {field : TextField}
    {width : Nat} {s : String} (h : field.Fits width s.toList) :
    Recovers bytes (field.read width bytes) s (field.encode width s.toList) := by
  intro p hp
  have hfound := hp.window hsize
  have hstop := hp.advance hsize
  rw [TextField.length_encode h] at hfound hstop ⊢
  rw [TextField.read, hfound, hstop, TextField.ofBytes_encode h, String.ofList_toList]

theorem recovers_terminated (hsize : (bytes.size : Int) ≤ Position.highest) {s : String}
    (h : '\x00' ∉ s.toList) :
    Recovers bytes (readTerminated bytes) s (Utf8.encode s.toList ++ [0]) := by
  intro p hp
  rw [readTerminated, hp.segment hsize (Utf8.zero_notMem_encode h)]
  dsimp only
  rw [Utf8.decode_encode, String.ofList_toList]

/-- Values that fit are read back from their bytes. -/
theorem recovers_encode (hsize : (bytes.size : Int) ≤ Position.highest) {f : Field}
    (hmove : f.isMove = false) {count : Nat} {values : List Datum} (h : f.Fits count values) :
    Recovers bytes (f.read count bytes) values (f.encode count values) := by
  obtain ⟨hlength, hadmits⟩ := h
  cases f with
  | number field =>
    obtain rfl : values.length = count := hlength
    refine Recovers.readTimes fun value hvalue => ?_
    match value, hadmits value hvalue with
    | .number n, hn => exact (recovers_number hsize hn).map Datum.number
  | text field =>
    match values, hlength with
    | [value], _ =>
      match value, hadmits value List.mem_cons_self with
      | .text s, hs =>
        rw [encode, List.flatMap_singleton]
        exact (recovers_text hsize hs).map fun s => [Datum.text s]
  | terminated =>
    obtain rfl : values.length = count := hlength
    refine Recovers.readTimes fun value hvalue => ?_
    match value, hadmits value hvalue with
    | .text s, hs => exact (recovers_terminated hsize hs).map Datum.text
  | move step => cases hmove

end BinaryLayout.Field
