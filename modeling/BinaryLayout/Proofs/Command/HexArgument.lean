import BinaryLayout.Proofs.Hexadecimal

/-!
# Which texts stand for bytes in hexadecimal

An argument in hexadecimal is read without its white space.  `Hex.digit?` and `Hex.halves` say which
characters stand for which bytes, so that every text can be told from its characters.

The lemmas go from the reader to the characters: `readHex_of_odd` and `readHex_of_even` are what it
makes of their bytes, `readHex_eq_ok_iff` says when it succeeds, and `readHex_cases` puts all of it
together.
-/

namespace BinaryLayout.Command

open Bytewise (asChar)

/-- A text is read like the bytes of its characters that are no white space. -/
theorem readHex_eq (text : String) :
    readHex text =
      match Hex.read (Utf8.encode (text.toList.filter fun c => !Text.isBlank c)) with
      | .ok bytes => .ok bytes
      | .error (.oddLength count) => .error (.hexOdd count)
      | .error (.notDigit byte index) => .error (.hexInvalid byte index) := by
  have hbytes := Bytewise.toUTF8_eq_encode
    (String.ofList (text.toList.filter fun c => !Text.isBlank c))
  rw [String.toList_ofList] at hbytes
  rw [← hbytes]
  rfl

section

variable {text : String} {chars : List Char}
  (hchars : (text.toList.filter fun c => !Text.isBlank c) = chars)

include hchars

/-- An odd number of bytes is refused for that. -/
theorem readHex_of_odd (h : (Utf8.encode chars).length % 2 = 1) :
    readHex text = .error (.hexOdd (Utf8.encode chars).length) := by
  rw [readHex_eq, hchars, Hex.read, if_pos h]

/-- An even number of bytes stands for others, or is refused for the first one that is no digit. -/
theorem readHex_of_even (h : (Utf8.encode chars).length % 2 = 0) :
    (∃ data : List UInt8, (Utf8.encode chars).map Hex.value? = (Hex.halves data).map some ∧
        readHex text = .ok data.toArray) ∨
      ∃ k b, (Utf8.encode chars)[k]? = some b ∧ Hex.value? b = none ∧
        (∀ j < k, ∀ d ∈ (Utf8.encode chars)[j]?, (Hex.value? d).isSome = true) ∧
          readHex text = .error (.hexInvalid b k) := by
  have hread : Hex.read (Utf8.encode chars) = Hex.readPairs #[] 0 (Utf8.encode chars) :=
    if_neg (by omega)
  rcases Hex.halves_or_notDigit _ h with ⟨data, hdata⟩ | ⟨k, b, hb, hnone, hbefore, herror⟩
  · refine .inl ⟨data, hdata, ?_⟩
    rw [readHex_eq, hchars, hread, Hex.readPairs_of_halves hdata]
    simp
  · refine .inr ⟨k, b, hb, hnone, hbefore, ?_⟩
    rw [readHex_eq, hchars, hread, herror, Nat.zero_add]

/-- A text is read as the bytes whose halves are the values of its characters. -/
theorem readHex_eq_ok_iff {bytes : Payload} :
    readHex text = .ok bytes ↔
      chars.map Hex.digit? = (Hex.halves bytes.toList).map some := by
  constructor
  · intro h
    rcases Nat.mod_two_eq_zero_or_one (Utf8.encode chars).length with heven | hodd
    · rcases readHex_of_even hchars heven with ⟨data, hdata, hread⟩ | ⟨_, _, _, _, _, herror⟩
      · obtain rfl : data.toArray = bytes := Except.ok.inj (hread.symm.trans h)
        have hdigits := Hex.isSome_digit?_of_encode (Hex.isSome_of_map_eq hdata)
        rw [← Hex.map_value?_encode hdigits, hdata]
      · rw [herror] at h
        cases h
    · rw [readHex_of_odd hchars hodd] at h
      cases h
  · intro h
    have hvalues := (Hex.map_value?_encode (Hex.isSome_of_map_eq h)).trans h
    have hlength : (Utf8.encode chars).length = 2 * bytes.size := by
      have hlength := congrArg List.length hvalues
      rwa [List.length_map, List.length_map, Hex.length_halves, Array.length_toList] at hlength
    rw [readHex_eq, hchars, Hex.read, if_neg (by omega), Hex.readPairs_of_halves hvalues]
    simp

end

/-- **Which texts stand for bytes in hexadecimal.**

Of the characters that are no white space there has to be an even number, and all of them have to be
digits.  Byte `i` is then sixteen times digit `2 * i` and the digit behind it.  So the digits of any
bytes are read as these, in either case and with white space anywhere.  All other texts are refused:
if the UTF-8 of the characters has an odd number of bytes for that number, and otherwise for the
first of the bytes that is no digit, with its index. -/
theorem readHex_cases (text : String) :
    let chars := text.toList.filter fun c => !Text.isBlank c
    let bytes := Utf8.encode chars
    ((∃ data, readHex text = .ok data) ↔
        chars.length % 2 = 0 ∧ ∀ c ∈ chars, (Hex.digit? c).isSome = true) ∧
      (∀ data, readHex text = .ok data →
        chars.length = 2 * data.size ∧
          ∀ i (hi : i < data.size), ∃ high low,
            chars[2 * i]?.bind Hex.digit? = some high ∧
              chars[2 * i + 1]?.bind Hex.digit? = some low ∧
                data[i].toNat = 16 * high + low) ∧
      (∀ data, chars.map Char.toLower = Hex.write .high data → readHex text = .ok data.toArray) ∧
      (bytes.length % 2 = 1 → readHex text = .error (.hexOdd bytes.length)) ∧
      (bytes.length % 2 = 0 → (∃ c ∈ chars, Hex.digit? c = none) →
        ∃ k b, bytes[k]? = some b ∧ Hex.digit? (asChar b) = none ∧
          (∀ j < k, ∀ d ∈ bytes[j]?, (Hex.digit? (asChar d)).isSome = true) ∧
            readHex text = .error (.hexInvalid b k)) := by
  intro chars bytes
  have hchars : (text.toList.filter fun c => !Text.isBlank c) = chars := rfl
  have hread {data : Payload} (h : readHex text = .ok data) :
      chars.map Hex.digit? = (Hex.halves data.toList).map some ∧ chars.length = 2 * data.size := by
    have hvalues := (readHex_eq_ok_iff hchars).1 h
    have hlength := congrArg List.length hvalues
    rw [List.length_map, List.length_map, Hex.length_halves, Array.length_toList] at hlength
    exact ⟨hvalues, hlength⟩
  refine ⟨⟨?_, ?_⟩, ?_, ?_, readHex_of_odd hchars, ?_⟩
  · rintro ⟨data, h⟩
    obtain ⟨hvalues, hlength⟩ := hread h
    exact ⟨by omega, Hex.isSome_of_map_eq hvalues⟩
  · rintro ⟨heven, hdigits⟩
    have hvalues := Hex.map_value?_encode hdigits
    have hlength := congrArg List.length hvalues
    rw [List.length_map, List.length_map] at hlength
    rcases readHex_of_even hchars (by omega) with ⟨data, _, h⟩ | ⟨k, b, hb, hnone, _⟩
    · exact ⟨data.toArray, h⟩
    · have hmem : none ∈ chars.map Hex.digit? :=
        hvalues ▸ hnone ▸ List.mem_map_of_mem (List.mem_of_getElem? hb)
      obtain ⟨c, hc, hnone⟩ := List.mem_map.1 hmem
      have hsome := hdigits c hc
      rw [hnone] at hsome
      cases hsome
  · intro data h
    obtain ⟨hvalues, hlength⟩ := hread h
    refine ⟨hlength, fun i hi => ?_⟩
    have hbyte : data.toList[i]? = some data[i] := by simp [hi]
    obtain ⟨hhigh, hlow⟩ := Hex.getElem?_halves hbyte
    refine ⟨_, _, Hex.bind_of_map_eq hvalues hhigh, Hex.bind_of_map_eq hvalues hlow, ?_⟩
    exact (Nat.div_add_mod _ 16).symm
  · intro data h
    exact (readHex_eq_ok_iff hchars).2 (Hex.map_digit?_of_toLower h)
  · rintro heven ⟨c, hc, hnone⟩
    rcases readHex_of_even hchars heven with ⟨data, hdata, _⟩ | ⟨k, b, hb, hvalue, hbefore, h⟩
    · have hsome := Hex.isSome_digit?_of_encode (Hex.isSome_of_map_eq hdata) c hc
      rw [hnone] at hsome
      cases hsome
    · refine ⟨k, b, hb, Hex.value?_eq b ▸ hvalue, fun j hj d hd => ?_, h⟩
      rw [← Hex.value?_eq]
      exact hbefore j hj d hd

/-- White space between the two digits of a byte, an odd number of bytes in an even number of
characters, and a letter with an accent behind a digit of a pair that is complete. -/
theorem readHex_cases_spaced :
    readHex " 0\u00A0a\u3000\tfF" = .ok #[0x0a, 0xff] ∧
      readHex "aé" = .error (.hexOdd 3) ∧
      readHex "0 aé" = .error (.hexInvalid 0xC3 2) := by
  obtain ⟨_, _, hspaced, _⟩ := readHex_cases " 0\u00A0a\u3000\tfF"
  obtain ⟨_, _, _, hodd, _⟩ := readHex_cases "aé"
  obtain ⟨_, _, _, _, hletter⟩ := readHex_cases "0 aé"
  refine ⟨hspaced [0x0a, 0xff] (by decide +kernel), hodd (by decide +kernel), ?_⟩
  obtain ⟨k, b, hb, hnone, hbefore, hread⟩ := hletter (by decide +kernel) ⟨'é', by decide +kernel⟩
  have hbytes : Utf8.encode ("0 aé".toList.filter fun c => !Text.isBlank c) =
      [0x30, 0x61, 0xC3, 0xA9] := by decide +kernel
  rw [hbytes] at hb hbefore
  match k, hb, hbefore with
  | 0, hb, _ => cases hb; exact absurd hnone (by decide +kernel)
  | 1, hb, _ => cases hb; exact absurd hnone (by decide +kernel)
  | 2, hb, _ => cases hb; exact hread
  | k + 3, _, hbefore => exact absurd (hbefore 2 (by omega) 0xC3 rfl) (by decide +kernel)

end BinaryLayout.Command
