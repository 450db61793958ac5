import BinaryLayout.Proofs.Runs.Saturation
import BinaryLayout.Proofs.Words

/-!
# What number fields read

A number is read from the bytes at the indices that its field covers, all of them or none.  This
module says which number that is, and it reads numbers once more the way a machine does: byte by
byte, at places that stop at the last position, and by shifting.

There are three groups.

* Bytes.  `Payload.gather` looks bytes up one by one, and `gather_eq_take?` says that it finds them
  all or none.  `take?_eq_between` says which bytes these are.
* Words.  `NumberField.readWords` reads a number by shifting, and `read_eq_readWords` compares it
  with the reading of the library.
* Numbers.  `NumberField.Means` says what a number in base 256 stands for in a field, and
  `NumberField.read_between` what a field reads.
-/

namespace BinaryLayout

/-! ## Bytes -/

namespace Payload

variable {bytes : Payload} {p : Int} {n : Nat}

/-- The `n` bytes from `p` on, looked up one after the other. The places stop at the last position.
Nothing is found if one of the bytes is missing. -/
def gather (bytes : Payload) (p : Position) : Nat → Option (List UInt8)
  | 0 => some []
  | n + 1 => do
    let found ← bytes.gather p n
    let b ← bytes.at? (Position.clamp (p + n))
    some (found ++ [b])

/-- There is no byte at the last position, so places may stop there. -/
theorem at?_clamp (hsize : (bytes.size : Int) ≤ Position.highest) {q : Int}
    (hq : Position.lowest ≤ q) : bytes.at? (Position.clamp q) = bytes.at? q := by
  by_cases hhigh : q ≤ Position.highest
  · rw [Position.clamp_eq hq hhigh]
  · have hlast : Position.clamp q = Position.highest := by
      rw [Position.clamp, Int.min_eq_right (by omega)]
      exact Int.max_eq_right (by decide)
    have hmissing (i : Int) (hi : (bytes.size : Int) ≤ i) : bytes.at? i = none := by
      rw [← Option.not_isSome_iff_eq_none, isSome_at?]
      omega
    rw [hlast, hmissing _ hsize, hmissing q (by omega)]

/-- The bytes that are taken are those at the indices that are covered. -/
theorem take?_eq_between (h : 0 ≤ p ∧ p + n ≤ bytes.size) :
    bytes.take? p n = some (bytes.between p (p + n)) := by
  have hstop : p.toNat + n = (p + n).toNat := by omega
  rw [take?, if_pos h, hstop, toList_extract_toNat]

theorem length_between (h : 0 ≤ p ∧ p + n ≤ bytes.size) :
    (bytes.between p (p + n)).length = n := by
  rw [between_eq_drop_take, List.length_drop, List.length_take, Array.length_toList]
  omega

/-- As many bytes are taken as are asked for. -/
theorem length_of_take? {found : List UInt8} (h : bytes.take? p n = some found) :
    found.length = n := by
  by_cases hheld : 0 ≤ p ∧ p + n ≤ bytes.size
  · rw [take?_eq_between hheld, Option.some.injEq] at h
    rw [← h, length_between hheld]
  · rw [take?, if_neg hheld] at h
    cases h

theorem take?_one : bytes.take? p 1 = (bytes.at? p).map ([·]) := by
  by_cases h : 0 ≤ p ∧ p + (1 : Nat) ≤ bytes.size
  · have hlt : p.toNat < bytes.size := by omega
    have hstop : (p + (1 : Nat)).toNat = p.toNat + 1 := by omega
    rw [take?_eq_between h, at?, if_pos h.1, Array.getElem?_eq_getElem hlt, between_eq_drop_take,
      hstop, List.drop_take, Nat.add_sub_cancel_left,
      List.drop_eq_getElem_cons (by rwa [Array.length_toList])]
    rfl
  · have hmissing : bytes.at? p = none := by
      rw [← Option.not_isSome_iff_eq_none, isSome_at?]
      omega
    rw [take?, if_neg h, hmissing]
    rfl

/-- One more byte is taken from behind the others. -/
theorem take?_succ (hn : 0 < n) :
    bytes.take? p (n + 1) =
      (bytes.take? p n).bind fun found => (bytes.at? (p + n)).map fun b => found ++ [b] := by
  by_cases h : 0 ≤ p ∧ p + (n + 1 : Nat) ≤ bytes.size
  · have hlt : (p + n).toNat < bytes.size := by omega
    have hstop : (p + (n + 1 : Nat)).toNat = (p + n).toNat + 1 := by omega
    rw [take?_eq_between h, take?_eq_between ⟨h.1, by omega⟩, at?, if_pos (by omega),
      Array.getElem?_eq_getElem hlt, between_eq_drop_take, between_eq_drop_take, hstop,
      List.take_succ_eq_append_getElem (by rwa [Array.length_toList]),
      List.drop_append_of_le_length (by rw [List.length_take, Array.length_toList]; omega)]
    rfl
  · rw [take?, if_neg h]
    by_cases hfirst : 0 ≤ p ∧ p + n ≤ bytes.size
    · have hmissing : bytes.at? (p + n) = none := by
        rw [← Option.not_isSome_iff_eq_none, isSome_at?]
        omega
      rw [hmissing, take?_eq_between hfirst]
      rfl
    · rw [take?, if_neg hfirst]
      rfl

/-- Bytes that are looked up one by one are found all or none. -/
theorem gather_eq_take? (hsize : (bytes.size : Int) ≤ Position.highest) (hp : Position.InRange p)
    (hn : 0 < n) : bytes.gather p n = bytes.take? p n := by
  induction n with
  | zero => exact absurd hn (by decide)
  | succ n ih =>
    have hplace : bytes.at? (Position.clamp (p + n)) = bytes.at? (p + n) :=
      at?_clamp hsize (Int.le_trans hp.1 (Int.le_add_of_nonneg_right (Int.natCast_nonneg n)))
    rw [gather, hplace]
    rcases Nat.eq_zero_or_pos n with rfl | hpos
    · rw [take?_one, gather, Int.natCast_zero, Int.add_zero]
      cases bytes.at? p <;> rfl
    · rw [ih hpos, take?_succ hpos]
      cases bytes.take? p n with
      | none => rfl
      | some found => cases bytes.at? (p + n) <;> rfl

end Payload

/-! ## Words -/

namespace NumberField

/-- The number that the field's bytes stand for, put together in a word. -/
def ofWord : NumberField → List UInt8 → Number
  | .byte .unsigned, found => .unsigned (found.headD 0).toUInt64
  | .byte .signed, found => .signed (found.headD 0).toInt8.toInt64
  | .word .unsigned _ order, found => .unsigned (order.word found)
  | .word .signed size order, found => .signed (extendSign size.bytes (order.word found))
  | .real .single order, found => .float (.ofBinary32 (order.word found).toUInt32.toNat)
  | .real .double order, found => .float ⟨order.word found⟩

/-- Reads the field at `p` byte by byte: the number, and the position behind the field. -/
def readWords (field : NumberField) (bytes : Payload) (p : Position) : Number × Position :=
  (((bytes.gather p field.width).map field.ofWord).getD .overrun, p.advance field.width)

end NumberField

variable {found : List UInt8}

/-- A byte is read as it stands, and its sign is spread as in two's complement. -/
theorem Signedness.number_byte (sign : Signedness) (b : UInt8) :
    sign.number 1 (base256 [b]) =
      match sign with
      | .unsigned => .unsigned b.toUInt64
      | .signed => .signed b.toInt8.toInt64 := by
  have hvalue : base256 [b] = b.toNat := by
    rw [base256, List.foldl_cons, List.foldl_nil, Nat.mul_zero, Nat.zero_add]
  have hsign : b.toInt8.toInt64.toInt =
      if 2 * b.toNat < 256 then (b.toNat : Int) else (b.toNat : Int) - 256 := by
    rw [Int8.toInt_toInt64]
    rfl
  rw [hvalue]
  cases sign with
  | unsigned => exact congrArg Number.unsigned (UInt64.ofNat_uInt8ToNat b)
  | signed => exact congrArg Number.signed (hsign ▸ Int64.ofInt_toInt _)

theorem Signedness.number_unsigned_word (width : Nat) (order : ByteOrder)
    (h : found.length ≤ 8) :
    unsigned.number width (order.value found) = .unsigned (order.word found) := by
  rw [number, ← order.toNat_word h, UInt64.ofNat_toNat]

theorem Signedness.number_signed_word (order : ByteOrder) (h : found.length ∈ [1, 2, 4, 8]) :
    signed.number found.length (order.value found) =
      .signed (extendSign found.length (order.word found)) := by
  have hwidths : ∀ width ∈ [1, 2, 4, 8], width ≤ 8 := by decide
  have hword := order.toNat_word (hwidths _ h)
  have hsize : 1 <<< (8 * found.length) = 256 ^ found.length := by
    rw [Nat.one_shiftLeft, Nat.pow_mul]
  have hlt : (order.word found).toNat < 256 ^ found.length := by
    rw [hword]
    exact order.value_lt found
  rw [number, hsize, ← hword, ← toInt_extendSign h hlt, Int64.ofInt_toInt]

/-- Four bytes fit in the lower half of a word. -/
theorem ByteOrder.toNat_toUInt32_word (order : ByteOrder) (h : found.length = 4) :
    (order.word found).toUInt32.toNat = order.value found := by
  have hlt : order.value found < 2 ^ 32 := by
    have hlt := order.value_lt found
    rwa [h] at hlt
  rw [UInt64.toNat_toUInt32, order.toNat_word (by omega), Nat.mod_eq_of_lt hlt]

namespace NumberField

/-- The bytes of a field stand for the same number when they are put together in a word. -/
theorem ofBytes_eq_ofWord (field : NumberField) (h : found.length = field.width) :
    field.ofBytes found = field.ofWord found := by
  have hwidth := h ▸ field.width_mem
  cases field with
  | byte sign =>
    obtain ⟨b, rfl⟩ := List.length_eq_one_iff.1 h
    rw [ofBytes, sign.number_byte]
    cases sign <;> rfl
  | word sign size order =>
    have hsize : found.length = size.bytes := h
    cases sign with
    | unsigned =>
      rw [ofBytes, ofWord, Signedness.number_unsigned_word]
      rw [hsize]
      cases size <;> decide
    | signed =>
      rw [ofBytes, ofWord, ← hsize]
      exact Signedness.number_signed_word order hwidth
  | real precision order =>
    cases precision with
    | single => rw [ofBytes, ofWord, order.toNat_toUInt32_word h]
    | double =>
      have hlength : found.length ≤ 8 := Nat.le_of_eq h
      rw [ofBytes, ofWord, ← order.toNat_word hlength, UInt64.ofNat_toNat]

/-- A machine reads the numbers that the library reads. -/
theorem read_eq_readWords (field : NumberField) {bytes : Payload}
    (hsize : (bytes.size : Int) ≤ Position.highest) {p : Int} (hp : Position.InRange p) :
    field.read bytes p = field.readWords bytes p := by
  rw [read, readWords, Payload.gather_eq_take? hsize hp field.width_pos]
  cases htake : bytes.take? p field.width with
  | none => rfl
  | some found =>
    rw [Option.map_some, Option.getD_some,
      ← field.ofBytes_eq_ofWord (Payload.length_of_take? htake)]

end NumberField

/-! ## Numbers -/

/-- The number whose digits in base 256 are these bytes. In big-endian order the first byte is the
digit that is worth most, in little-endian order it is the digit of the ones. -/
def ByteOrder.numeral (order : ByteOrder) (found : List UInt8) : Nat :=
  Nat.ofDigits 256 ((match order with
    | .big => found.reverse
    | .little => found).map UInt8.toNat)

theorem ByteOrder.value_eq_numeral (order : ByteOrder) (found : List UInt8) :
    order.value found = order.numeral found := by
  cases order with
  | big => exact base256_eq_ofDigits found
  | little =>
    rw [value, base256_eq_ofDigits, List.reverse_reverse]
    rfl

/-- Whether this is the integer that a field of `width` bytes holds, where the bytes in base 256 are
`n`. A signed one is less by `2 ^ (8 * width)` if the first of its bits is set. -/
def Signedness.Means (width n : Nat) : Signedness → Number → Prop
  | .unsigned, .unsigned x => x.toNat = n
  | .signed, .signed x =>
    x.toInt = if 2 ^ (8 * width - 1) ≤ n then (n : Int) - 2 ^ (8 * width) else n
  | _, _ => False

namespace NumberField

/-- Whether this is the number that the field holds, where its bytes in base 256 are `n`. A double
has the bits of `n`. -/
def Means (n : Nat) : NumberField → Number → Prop
  | .byte sign, number => sign.Means 1 n number
  | .word sign size _, number => sign.Means size.bytes n number
  | .real .single _, number => number = .float (.ofBinary32 n)
  | .real .double _, .float x => x.bits.toNat = n
  | .real .double _, _ => False

/-- The same field in another byte order. A single byte has none. -/
def withOrder (order : ByteOrder) : NumberField → NumberField
  | .byte sign => .byte sign
  | .word sign size _ => .word sign size order
  | .real precision _ => .real precision order

end NumberField

namespace Signedness

/-- The first bit is worth half of all that the bits can hold. -/
theorem two_mul_two_pow {width : Nat} (h : 0 < width) :
    2 * 2 ^ (8 * width - 1) = 256 ^ width := by
  have hfull : 256 ^ width = 2 ^ (8 * width) := (Nat.pow_mul 2 8 width).symm
  rw [hfull, ← Nat.pow_succ']
  congr 1
  omega

theorem means_number (sign : Signedness) (order : ByteOrder) (h : found.length ∈ [1, 2, 4, 8]) :
    sign.Means found.length (order.value found) (sign.number found.length (order.value found)) := by
  have hwidths : ∀ width ∈ [1, 2, 4, 8], 0 < width ∧ width ≤ 8 := by decide
  obtain ⟨hpos, hle⟩ := hwidths _ h
  have hword := order.toNat_word hle
  cases sign with
  | unsigned =>
    rw [number_unsigned_word _ order hle]
    exact hword
  | signed =>
    have hlt := order.value_lt found
    have hhalf := two_mul_two_pow hpos
    have hfull : ((256 ^ found.length : Nat) : Int) = 2 ^ (8 * found.length) := by
      rw [Nat.pow_mul 2 8 found.length |>.symm, Int.natCast_pow]
      rfl
    rw [number_signed_word order h, Means, toInt_extendSign h (by rwa [hword]), hword, hfull]
    by_cases hsign : 2 ^ (8 * found.length - 1) ≤ order.value found
    · rw [if_pos hsign, if_neg (by omega)]
    · rw [if_neg hsign, if_pos (by omega)]

/-- No two numbers in range stand for the same integer. -/
theorem Means.unique {sign : Signedness} {width n m : Nat} (hwidth : 0 < width) {x : Number}
    (hn : n < 256 ^ width) (hm : m < 256 ^ width) (h : sign.Means width n x)
    (h' : sign.Means width m x) : n = m := by
  match sign, x, h, h' with
  | .unsigned, .unsigned x, h, h' => exact h.symm.trans h'
  | .signed, .signed x, h, h' =>
    have hhalf := two_mul_two_pow hwidth
    have hfull : (2 : Int) ^ (8 * width) = (256 ^ width : Nat) := by
      rw [Nat.pow_mul 2 8 width |>.symm, Int.natCast_pow]
      rfl
    have hboth := h.symm.trans h'
    rw [hfull] at hboth
    split at hboth <;> split at hboth <;> omega

end Signedness

namespace NumberField

@[simp] theorem width_withOrder (field : NumberField) (order : ByteOrder) :
    (field.withOrder order).width = field.width := by
  cases field <;> rfl

theorem means_ofBytes (field : NumberField) (h : found.length = field.width) :
    field.Means (field.order.numeral found) (field.ofBytes found) := by
  have hwidth := h ▸ field.width_mem
  rw [← ByteOrder.value_eq_numeral]
  cases field with
  | byte sign =>
    have hlength : found.length = 1 := h
    rw [Means, ← hlength, ofBytes, ← hlength]
    exact sign.means_number .big hwidth
  | word sign size order =>
    have hlength : found.length = size.bytes := h
    rw [Means, ← hlength, ofBytes, ← hlength]
    exact sign.means_number order hwidth
  | real precision order =>
    cases precision with
    | single => rfl
    | double =>
      have hlength : found.length ≤ 8 := Nat.le_of_eq h
      rw [ofBytes_eq_ofWord _ h]
      exact order.toNat_word hlength

/-- Of a single more than one bit pattern may stand for a NaN. All other fields tell their bytes
apart. -/
theorem Means.unique {field : NumberField} (hfield : ∀ order, field ≠ .real .single order)
    {n m : Nat} (hn : n < 256 ^ field.width) (hm : m < 256 ^ field.width) {x : Number}
    (h : field.Means n x) (h' : field.Means m x) : n = m := by
  match field, x, h, h' with
  | .byte sign, x, h, h' => exact Signedness.Means.unique (width_pos _) hn hm h h'
  | .word sign size order, x, h, h' => exact Signedness.Means.unique (width_pos _) hn hm h h'
  | .real .single order, x, _, _ => exact absurd rfl (hfield order)
  | .real .double _, .float x, h, h' => exact h.symm.trans h'

theorem ofBytes_inj {field : NumberField} (hfield : ∀ order, field ≠ .real .single order)
    {other : List UInt8} (hfound : found.length = field.width)
    (hother : other.length = field.width) (h : field.ofBytes found = field.ofBytes other) :
    found = other := by
  have hlt (bytes : List UInt8) (hlength : bytes.length = field.width) :
      field.order.numeral bytes < 256 ^ field.width := by
    rw [← ByteOrder.value_eq_numeral, ← hlength]
    exact field.order.value_lt bytes
  have hnumeral := Means.unique hfield (hlt found hfound) (hlt other hother)
    (field.means_ofBytes hfound) (h ▸ field.means_ofBytes hother)
  rw [← ByteOrder.value_eq_numeral, ← ByteOrder.value_eq_numeral] at hnumeral
  exact field.order.value_inj (hfound.trans hother.symm) hnumeral

/-- Bytes in one order stand for what the bytes back to front stand for in the other. -/
theorem ofBytes_reverse (field : NumberField) (h : found.length = field.width) :
    (field.withOrder .big).ofBytes found.reverse = (field.withOrder .little).ofBytes found := by
  cases field with
  | byte sign =>
    obtain ⟨b, rfl⟩ := List.length_eq_one_iff.1 h
    rfl
  | word sign size order => rfl
  | real precision order => cases precision <;> rfl

theorem read_of_held (field : NumberField) {bytes : Payload} {p : Int}
    (h : 0 ≤ p ∧ p + field.width ≤ bytes.size) :
    (field.read bytes p).1 = field.ofBytes (bytes.between p (p + field.width)) := by
  rw [read, Payload.take?_eq_between h]

/-- **What a number field reads.**

If the payload holds all bytes of the field, the field reads the number that they stand for in base
256, and otherwise a NaN.  Either way it ends behind its bytes, or at the last position.  So does a
machine that shifts the bytes into a word.  In the other byte order the bytes read back to front
give the same number, and different bytes give different numbers, unless they are singles. -/
theorem read_between (field : NumberField) (bytes : Payload)
    (hsize : (bytes.size : Int) ≤ Position.highest) (p : Int) (hp : Position.InRange p) :
    let found := bytes.between p (p + field.width)
    (field.read bytes p).2 = min (p + field.width) Position.highest ∧
      field.read bytes p = field.readWords bytes p ∧
      if 0 ≤ p ∧ p + field.width ≤ bytes.size then
        field.Means (field.order.numeral found) (field.read bytes p).1 ∧
          ∀ (other : Payload) (q : Int), 0 ≤ q ∧ q + field.width ≤ other.size →
            (other.between q (q + field.width) = found.reverse →
              ((field.withOrder .big).read other q).1 =
                ((field.withOrder .little).read bytes p).1) ∧
            ((∀ order, field ≠ .real .single order) →
              (field.read other q).1 = (field.read bytes p).1 →
              other.between q (q + field.width) = found)
      else (field.read bytes p).1 = .float .nan := by
  intro found
  have hmove : (field.read bytes p).2 = min (p + field.width) Position.highest :=
    Position.advance_eq_min hp field.width_le_highest
  refine ⟨hmove, field.read_eq_readWords hsize hp, ?_⟩
  by_cases hheld : 0 ≤ p ∧ p + field.width ≤ bytes.size
  · have hlength := Payload.length_between hheld
    rw [if_pos hheld]
    refine ⟨?_, fun other q hother => ⟨fun hreverse => ?_, fun hfield hread => ?_⟩⟩
    · rw [field.read_of_held hheld]
      exact field.means_ofBytes hlength
    · rw [read_of_held _ (by rwa [width_withOrder]), read_of_held _ (by rwa [width_withOrder]),
        width_withOrder, width_withOrder, hreverse, ofBytes_reverse _ hlength]
    · rw [field.read_of_held hheld, field.read_of_held hother] at hread
      exact ofBytes_inj hfield (Payload.length_between hother) hlength hread
  · rw [if_neg hheld, read, Payload.take?, if_neg hheld]
    rfl

/-- Two bytes whose last one has its first bit set, in front of the end of the payload, and the same
field where only one of its bytes is there. -/
theorem read_between_signed :
    let field : NumberField := .word .signed .two .little
    let bytes : Payload := #[7, 0x01, 0x80]
    (bytes.size : Int) ≤ Position.highest ∧ Position.InRange 1 ∧ Position.InRange 2 ∧
      (∃ x : Int64, (field.read bytes 1).1 = .signed x ∧ x.toInt = 0x8001 - 0x10000) ∧
      (field.read bytes 1).2 = 3 ∧ (field.read bytes 2).1 = .float .nan ∧
      (field.read bytes 2).2 = 4 := by
  intro field bytes
  have hsize : (bytes.size : Int) ≤ Position.highest := by decide
  have hfirst : Position.InRange 1 := by decide
  have hsecond : Position.InRange 2 := by decide
  obtain ⟨hplace, _, hnumber⟩ := read_between field bytes hsize 1 hfirst
  obtain ⟨hbehind, _, hmissing⟩ := read_between field bytes hsize 2 hsecond
  rw [if_pos (by decide)] at hnumber
  rw [if_neg (by decide)] at hmissing
  have hnumeral : field.order.numeral (bytes.between 1 (1 + field.width)) = 0x8001 := by
    decide +kernel
  have hmeans := hnumber.1
  rw [hnumeral] at hmeans
  refine ⟨hsize, hfirst, hsecond, ?_, hplace, hmissing, hbehind⟩
  cases hread : (field.read bytes 1).1 with
  | signed x =>
    rw [hread] at hmeans
    have hint : x.toInt =
        if 2 ^ (8 * 2 - 1) ≤ 0x8001 then (0x8001 : Int) - 2 ^ (8 * 2) else 0x8001 := hmeans
    rw [if_pos (by decide)] at hint
    exact ⟨x, rfl, hint⟩
  | unsigned x => rw [hread] at hmeans; exact hmeans.elim
  | float x => rw [hread] at hmeans; exact hmeans.elim

end NumberField

end BinaryLayout
