import BinaryLayout.Command.Run
import BinaryLayout.Proofs.Encoding.Text
import BinaryLayout.Proofs.Fields.Texts

/-!
# What hexadecimal fields read

A hexadecimal field writes two digits for each of its bytes and cuts off those behind its width.
With an odd width it covers one byte of which it shows one half.  This module says which digit
stands at which place, and that the digits of whole bytes are read back as these bytes.

There are three groups.

* Digits.  `Hex.getElem?_write` looks up one digit of some bytes, and `Hex.write_low` says how the
  digits stand that begin with the low half.
* Reading back.  `Hex.readPairs_write` reads the pairs of digits one by one, and
  `Command.readHex_write` reads the argument that is made of them.
* Fields.  `TextField.read_hex` says what a field reads from the bytes at the indices that it
  covers.
-/

namespace BinaryLayout

/-! ## Digits -/

namespace Hex

/-- The half of byte `k / 2` that digit `k` shows. -/
def nibbleAt (first : Nibble) (k : Nat) (b : UInt8) : Nat :=
  match first with
  | .high => if k % 2 = 0 then b.toNat / 16 else b.toNat % 16
  | .low => if k % 2 = 0 then b.toNat % 16 else b.toNat / 16

/-- Changes places within each pair. -/
def swapPairs : List Char → List Char
  | a :: b :: rest => b :: a :: swapPairs rest
  | rest => rest

theorem div_lt_sixteen (b : UInt8) : b.toNat / 16 < 16 := by
  have hlt : b.toNat < 256 := b.toNat_lt
  omega

theorem mod_lt_sixteen (b : UInt8) : b.toNat % 16 < 16 := Nat.mod_lt _ (by decide)

theorem getElem?_digits : ∀ n < 16, digits[n]? = some (Nat.digitChar n) := by decide

theorem digitsOf_eq (first : Nibble) (b : UInt8) :
    digitsOf first b =
      [Nat.digitChar (nibbleAt first 0 b), Nat.digitChar (nibbleAt first 1 b)] := by
  cases first <;> rfl

theorem nibbleAt_lt (first : Nibble) (k : Nat) (b : UInt8) : nibbleAt first k b < 16 := by
  have hdiv := div_lt_sixteen b
  have hmod := mod_lt_sixteen b
  cases first with
  | high =>
    rw [nibbleAt]
    split <;> assumption
  | low =>
    rw [nibbleAt]
    split <;> assumption

theorem nibbleAt_add_two (first : Nibble) (k : Nat) (b : UInt8) :
    nibbleAt first (k + 2) b = nibbleAt first k b := by
  have hparity : (k + 2) % 2 = k % 2 := by omega
  cases first with
  | high => rw [nibbleAt, nibbleAt, hparity]
  | low => rw [nibbleAt, nibbleAt, hparity]

theorem length_write (first : Nibble) (bytes : List UInt8) :
    (write first bytes).length = 2 * bytes.length := by
  induction bytes with
  | nil => rfl
  | cons b bytes ih =>
    rw [write_cons, digitsOf_eq, List.length_append, ih, List.length_cons, List.length_cons,
      List.length_cons, List.length_nil]
    omega

/-- Digit `k` shows a half of byte `k / 2`. -/
theorem getElem?_write (first : Nibble) {bytes : List UInt8} {k : Nat} {b : UInt8}
    (h : bytes[k / 2]? = some b) :
    (write first bytes)[k]? = digits[nibbleAt first k b]? := by
  induction bytes generalizing k with
  | nil => cases h
  | cons d bytes ih =>
    rw [write_cons, digitsOf_eq]
    match k, h with
    | 0, h =>
      obtain rfl : d = b := Option.some.inj h
      exact (getElem?_digits _ (nibbleAt_lt first 0 d)).symm
    | 1, h =>
      obtain rfl : d = b := Option.some.inj h
      exact (getElem?_digits _ (nibbleAt_lt first 1 d)).symm
    | k + 2, h =>
      have hplace : (k + 2) / 2 = k / 2 + 1 := by omega
      rw [hplace, List.getElem?_cons_succ] at h
      rw [nibbleAt_add_two]
      exact ih h

/-- Low halves in front: the digits of each byte change places, before any digit is cut off. -/
theorem write_low (bytes : List UInt8) : write .low bytes = swapPairs (write .high bytes) := by
  induction bytes with
  | nil => rfl
  | cons b bytes ih =>
    rw [write_cons, write_cons, ih]
    rfl

/-! ## Reading back -/

/-- A digit is one byte, which has its value, and it is not left out as white space. -/
theorem digitChar_spec : ∀ n < 16,
    String.utf8EncodeChar (Nat.digitChar n) = [(Nat.digitChar n).toUInt8] ∧
      value? (Nat.digitChar n).toUInt8 = some n ∧ Text.isBlank (Nat.digitChar n) = false := by
  decide

/-- The digits of one more byte. -/
theorem encode_write_cons (b : UInt8) (bytes : List UInt8) :
    Utf8.encode (write .high (b :: bytes)) =
      (Nat.digitChar (b.toNat / 16)).toUInt8 :: (Nat.digitChar (b.toNat % 16)).toUInt8 ::
        Utf8.encode (write .high bytes) := by
  obtain ⟨hhigh, _⟩ := digitChar_spec _ (div_lt_sixteen b)
  obtain ⟨hlow, _⟩ := digitChar_spec _ (mod_lt_sixteen b)
  rw [write_cons, Utf8.encode_append]
  show Utf8.encode [_, _] ++ _ = _
  rw [Utf8.encode_cons, Utf8.encode_cons, hhigh, hlow]
  rfl

theorem length_encode_write (bytes : List UInt8) :
    (Utf8.encode (write .high bytes)).length = 2 * bytes.length := by
  induction bytes with
  | nil => rfl
  | cons b bytes ih =>
    rw [encode_write_cons, List.length_cons, List.length_cons, List.length_cons, ih]
    omega

/-- The pairs of digits are read as the bytes that they were written for. -/
theorem readPairs_write (bytes : List UInt8) (done : Array UInt8) (i : Nat) :
    readPairs done i (Utf8.encode (write .high bytes)) = .ok (done ++ bytes) := by
  induction bytes generalizing done i with
  | nil => exact congrArg Except.ok (Array.appendList_nil).symm
  | cons b bytes ih =>
    obtain ⟨_, hhigh, _⟩ := digitChar_spec _ (div_lt_sixteen b)
    obtain ⟨_, hlow, _⟩ := digitChar_spec _ (mod_lt_sixteen b)
    have hbyte : UInt8.ofNat (16 * (b.toNat / 16) + b.toNat % 16) = b := by
      rw [Nat.div_add_mod, UInt8.ofNat_toNat]
    rw [encode_write_cons, readPairs, hhigh, hlow]
    dsimp only
    rw [hbyte, ih, Array.appendList_cons]

theorem read_write (bytes : List UInt8) :
    read (Utf8.encode (write .high bytes)) = .ok bytes.toArray := by
  rw [read, length_encode_write, if_neg (by omega), readPairs_write]
  simp

theorem isBlank_of_mem_write {first : Nibble} {bytes : List UInt8} {c : Char}
    (h : c ∈ write first bytes) : Text.isBlank c = false := by
  obtain ⟨b, _, hc⟩ := List.mem_flatMap.1 h
  rw [digitsOf_eq, List.mem_cons, List.mem_singleton] at hc
  rcases hc with rfl | rfl
  · exact (digitChar_spec _ (nibbleAt_lt first 0 b)).2.2
  · exact (digitChar_spec _ (nibbleAt_lt first 1 b)).2.2

end Hex

/-- The digits of some bytes, as an argument, stand for these bytes. -/
theorem Command.readHex_write (bytes : List UInt8) :
    readHex (String.ofList (Hex.write .high bytes)) = .ok bytes.toArray := by
  have hkept : (Hex.write .high bytes).filter (fun c => !Text.isBlank c) = Hex.write .high bytes :=
    List.filter_eq_self.2 fun c hc => by rw [Hex.isBlank_of_mem_write hc]; rfl
  rw [readHex, String.toList_ofList, hkept, Bytewise.toUTF8_eq_encode, String.toList_ofList,
    Hex.read_write]

/-! ## Fields -/

namespace TextField

/-- **What hexadecimal fields read.**

A field yields two digits for each of those bytes at the indices it covers that the payload holds,
up to its width.  Each digit shows the half of its byte that the order of the halves says.  The
field ends behind its bytes, or at the last position.  The digits of whole bytes, high half first,
are read back as these bytes. -/
theorem read_hex (first : Hex.Nibble) (bytes : Payload)
    (hsize : (bytes.size : Int) ≤ Position.highest) (p : Int) (hp : Position.InRange p)
    (width : Nat) (hwidth : (((width + 1) / 2 : Nat) : Int) ≤ Position.highest) :
    let window := bytes.between p (p + ((width + 1) / 2 : Nat))
    ∃ text : List Char,
      (TextField.hex first).read width bytes p =
          (String.ofList text, min (p + ((width + 1) / 2 : Nat)) Position.highest) ∧
        text.length = min width (2 * window.length) ∧
        (∀ k < text.length, ∃ b, window[k / 2]? = some b ∧
          text[k]? = Hex.digits[Hex.nibbleAt first k b]?) ∧
        (first = .high → width % 2 = 0 →
          Command.readHex (String.ofList text) = .ok window.toArray) := by
  intro window
  have hlength : ((Hex.write first window).take width).length = min width (2 * window.length) := by
    rw [List.length_take, Hex.length_write]
  refine ⟨(Hex.write first window).take width, ?_, hlength, fun k hk => ?_, ?_⟩
  · exact read_eq_between (.hex first) hsize hp hwidth
  · have hhalf : k / 2 < window.length := by omega
    refine ⟨window[k / 2], List.getElem?_eq_getElem hhalf, ?_⟩
    rw [List.getElem?_take_of_lt (by omega)]
    exact Hex.getElem?_write first (List.getElem?_eq_getElem hhalf)
  · rintro rfl heven
    have hroom : window.length ≤ (width + 1) / 2 := Payload.length_between_le bytes p _
    have hwhole : (Hex.write .high window).take width = Hex.write .high window :=
      List.take_of_length_le (by rw [Hex.length_write]; omega)
    rw [hwhole, Command.readHex_write]

/-- Three digits of two bytes, low half first, so that the high half of the second byte is cut off,
and all digits of two bytes, read from in front of the payload to its end. -/
theorem read_hex_cut_off :
    let bytes : Payload := #[0xab, 0xcd]
    (bytes.size : Int) ≤ Position.highest ∧ Position.InRange 0 ∧ Position.InRange (-1) ∧
      (((3 + 1) / 2 : Nat) : Int) ≤ Position.highest ∧
      (((6 + 1) / 2 : Nat) : Int) ≤ Position.highest ∧
      ((TextField.hex .low).read 3 bytes 0).1.toList.length = 3 ∧
      ((TextField.hex .low).read 3 bytes 0).1.toList[2]? = some 'd' ∧
      ((TextField.hex .low).read 3 bytes 0).2 = 2 ∧
      Command.readHex ((TextField.hex .high).read 6 bytes (-1)).1 = .ok bytes := by
  intro bytes
  have hwindow : bytes.between 0 (0 + ((3 + 1) / 2 : Nat)) = [0xab, 0xcd] := by decide +kernel
  have hwhole : bytes.between (-1) (-1 + ((6 + 1) / 2 : Nat)) = [0xab, 0xcd] := by decide +kernel
  refine ⟨by decide, by decide, by decide, by decide, by decide, ?_⟩
  obtain ⟨text, hread, hlength, hdigits, _⟩ :=
    read_hex .low bytes (by decide) 0 (by decide) 3 (by decide)
  obtain ⟨all, hall, _, _, hback⟩ :=
    read_hex .high bytes (by decide) (-1) (by decide) 6 (by decide)
  have hthree : text.length = 3 := by
    rw [hlength, hwindow]
    rfl
  obtain ⟨b, hb, hdigit⟩ := hdigits 2 (by omega)
  rw [hwindow] at hb
  obtain rfl : 0xcd = b := Option.some.inj hb
  rw [hread, hall, String.toList_ofList, hback rfl rfl, hwhole]
  exact ⟨hthree, hdigit, rfl, rfl⟩

end TextField

end BinaryLayout
