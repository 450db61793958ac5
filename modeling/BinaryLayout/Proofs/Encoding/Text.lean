import BinaryLayout.TextField
import BinaryLayout.Proofs.Encoding.Utf8

/-!
# Reading back texts of fixed width

A text field loses what pads its text, and a hexadecimal one reads every second digit together with
the one in front of it.  So a text has to end in something that is no padding, and digits have to
come in pairs.

* Hexadecimal digits.  `Hex.write_encode` writes the digits that bytes were made of.
* Padding.  `dropPadding_append_replicate` drops padding, and `Utf8.rightpad_encode` says that
  padding with bytes is padding with characters.
* Fields.  `TextField.Fits` says which texts a field can yield for bytes of its own width, and
  `TextField.ofBytes_encode` reads them back.
-/

namespace BinaryLayout

/-! ## Hexadecimal digits -/

namespace Hex

/-- The lowercase digits. -/
def digits : List Char := "0123456789abcdef".toList

/-- The value of a digit. -/
def digitValue (c : Char) : Nat := (value? c.toUInt8).getD 0

theorem digitChar_digitValue {c : Char} (h : c ∈ digits) :
    digitValue c < 16 ∧ Nat.digitChar (digitValue c) = c := by
  have hall :
      digits.all (fun c => digitValue c < 16 ∧ Nat.digitChar (digitValue c) = c) = true := by
    decide
  exact of_decide_eq_true (List.all_eq_true.1 hall c h)

/-- The byte with two given digits. -/
def byteOf : Nibble → Char → Char → UInt8
  | .high, a, b => UInt8.ofNat (16 * digitValue a + digitValue b)
  | .low, a, b => UInt8.ofNat (16 * digitValue b + digitValue a)

theorem digitsOf_byteOf (first : Nibble) {a b : Char} (ha : a ∈ digits) (hb : b ∈ digits) :
    digitsOf first (byteOf first a b) = [a, b] := by
  obtain ⟨hlta, hchara⟩ := digitChar_digitValue ha
  obtain ⟨hltb, hcharb⟩ := digitChar_digitValue hb
  have hhalves {m n : Nat} (hm : m < 16) (hn : n < 16) :
      (UInt8.ofNat (16 * m + n)).toNat / 16 = m ∧ (UInt8.ofNat (16 * m + n)).toNat % 16 = n := by
    have hbyte : (UInt8.ofNat (16 * m + n)).toNat = (16 * m + n) % 256 := UInt8.toNat_ofNat'
    omega
  cases first with
  | high =>
    obtain ⟨hhigh, hlow⟩ := hhalves hlta hltb
    rw [digitsOf, byteOf, hhigh, hlow, hchara, hcharb]
  | low =>
    obtain ⟨hhigh, hlow⟩ := hhalves hltb hlta
    rw [digitsOf, byteOf, hhigh, hlow, hchara, hcharb]

/-- The bytes of a text of digits, two to a byte. -/
def encode (first : Nibble) : List Char → List UInt8
  | [] | [_] => []
  | a :: b :: rest => byteOf first a b :: encode first rest

theorem length_encode (first : Nibble) (text : List Char) :
    (encode first text).length = text.length / 2 := by
  fun_induction encode first text with
  | case1 => rfl
  | case2 c =>
    show 0 = 1 / 2
    rfl
  | case3 a b rest ih =>
    rw [List.length_cons, ih, List.length_cons, List.length_cons]
    omega

theorem write_cons (first : Nibble) (byte : UInt8) (bytes : List UInt8) :
    write first (byte :: bytes) = digitsOf first byte ++ write first bytes := List.flatMap_cons

/-- An even number of digits is read back. -/
theorem write_encode (first : Nibble) {text : List Char} (heven : text.length % 2 = 0)
    (hdigits : text ⊆ digits) : write first (encode first text) = text := by
  fun_induction encode first text with
  | case1 => rfl
  | case2 c =>
    rw [List.length_singleton] at heven
    omega
  | case3 a b rest ih =>
    rw [List.length_cons, List.length_cons] at heven
    rw [List.cons_subset, List.cons_subset] at hdigits
    obtain ⟨ha, hb, hrest⟩ := hdigits
    rw [write_cons, digitsOf_byteOf first ha hb, ih (by omega) hrest]
    rfl

end Hex

/-! ## Padding -/

/-- Padding behind a text is dropped, and nothing else, if the text does not end in padding. -/
theorem dropPadding_append_replicate {isPadding : Char → Bool} {pad : Char}
    (hpad : isPadding pad = true) {text : List Char}
    (htext : text.getLast?.any isPadding = false) (k : Nat) :
    dropPadding isPadding (text ++ List.replicate k pad) = text := by
  have hall : ∀ c ∈ List.replicate k pad, isPadding c = true := by
    intro c hc
    rw [List.eq_of_mem_replicate hc, hpad]
  have hstop : text.reverse.dropWhile isPadding = text.reverse := by
    rw [← List.head?_reverse] at htext
    cases hrev : text.reverse with
    | nil => rfl
    | cons c more =>
      rw [hrev] at htext
      exact List.dropWhile_cons_of_neg (Bool.eq_false_iff.1 htext)
  rw [dropPadding, List.reverse_append, List.reverse_replicate, List.dropWhile_append_of_pos hall,
    hstop, List.reverse_reverse]

namespace Utf8

/-- Padding with the byte of a character is padding with that character. -/
theorem rightpad_encode {pad : Char} {b : UInt8} (hpad : String.utf8EncodeChar pad = [b])
    (width : Nat) (text : List Char) :
    (encode text).rightpad width b =
      encode (text ++ List.replicate (width - (encode text).length) pad) := by
  have hreplicate (k : Nat) : encode (List.replicate k pad) = List.replicate k b := by
    rw [encode, List.flatMap_replicate, hpad, List.flatten_replicate_singleton]
  rw [List.rightpad, encode_append, hreplicate]

end Utf8

/-! ## Fields -/

namespace TextField

/-- Whether a text can be what a field of `width` reads. -/
def Fits : TextField → Nat → List Char → Prop
  | .raw, width, text => (Utf8.encode text).length = width
  | .blankPadded, width, text =>
    (Utf8.encode text).length ≤ width ∧ text.getLast?.any isBlankPadding = false
  | .zeroPadded, width, text =>
    (Utf8.encode text).length ≤ width ∧ text.getLast?.any isZeroPadding = false
  | .hex _, width, text => width % 2 = 0 ∧ text.length = width ∧ text ⊆ Hex.digits

/-- The bytes that stand for a text, padded to the width of the field. -/
def encode : TextField → Nat → List Char → List UInt8
  | .raw, _, text => Utf8.encode text
  | .blankPadded, width, text => (Utf8.encode text).rightpad width 0x20
  | .zeroPadded, width, text => (Utf8.encode text).rightpad width 0x00
  | .hex first, _, text => Hex.encode first text

variable {field : TextField} {width : Nat} {text : List Char}

theorem length_encode (h : field.Fits width text) :
    (field.encode width text).length = field.span width := by
  match field, h with
  | .raw, h => exact h
  | .blankPadded, h =>
    rw [encode, List.length_rightpad]
    exact Nat.max_eq_left h.1
  | .zeroPadded, h =>
    rw [encode, List.length_rightpad]
    exact Nat.max_eq_left h.1
  | .hex first, h =>
    obtain ⟨heven, hlength, _⟩ := h
    rw [encode, Hex.length_encode, hlength, span]
    omega

/-- A text that fits is read back from its bytes. -/
theorem ofBytes_encode (h : field.Fits width text) :
    field.ofBytes width (field.encode width text) = text := by
  match field, h with
  | .raw, _ => exact Utf8.decode_encode text
  | .blankPadded, h =>
    have hpad : String.utf8EncodeChar ' ' = [0x20] := rfl
    rw [ofBytes, encode, Utf8.rightpad_encode hpad, Utf8.decode_encode]
    exact dropPadding_append_replicate rfl h.2 _
  | .zeroPadded, h =>
    have hpad : String.utf8EncodeChar '\x00' = [0x00] := rfl
    rw [ofBytes, encode, Utf8.rightpad_encode hpad, Utf8.decode_encode]
    exact dropPadding_append_replicate rfl h.2 _
  | .hex first, h =>
    obtain ⟨heven, hlength, hdigits⟩ := h
    rw [ofBytes, encode, Hex.write_encode first (by rw [hlength, heven]) hdigits]
    exact List.take_of_length_le (Nat.le_of_eq hlength)

end TextField

end BinaryLayout
