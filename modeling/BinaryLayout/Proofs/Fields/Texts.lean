import BinaryLayout.TextField
import BinaryLayout.Proofs.Bytewise.Agreement
import BinaryLayout.Proofs.Encoding.Subparts
import BinaryLayout.Proofs.Runs.Saturation
import Mathlib.Data.List.DropRight

/-!
# What text fields read

A padded field reads its bytes as text and then drops padding from the end of the text.  This module
drops bytes instead, and says that this comes to the same: whatever ill-formed bytes stand in front
of the padding, a byte of padding is read as itself, and it ends what has begun.

There are three groups.

* Last bytes.  `Reads.concat` reads one more byte of ASCII, and `Reads.exists_getLast?` says that no
  other byte is read as a character of ASCII.
* Padding.  `Utf8.dropPadding_decode` drops padding before and after reading.
* Fields.  `TextField.read_eq_between` says which bytes a field reads, and `TextField.read_padded`
  what it reads from them.
-/

namespace BinaryLayout

/-! ## Last bytes -/

namespace Utf8

open Bytewise (utf8EncodeChar_cases toNat_asChar)

variable {bytes : List UInt8} {text : List Char} {b : UInt8}

/-- A character of ASCII begins with its only byte. -/
theorem le_toNat_of_begins {part : List UInt8} (hpart : part ≠ []) (h : Begins (part ++ [b])) :
    128 ≤ b.toNat := by
  obtain ⟨c, hc⟩ := h
  have hpos := List.length_pos_iff.2 hpart
  have hle := hc.length_le
  rw [List.length_append, List.length_singleton] at hle
  rcases utf8EncodeChar_cases c with ⟨d, hd, _⟩ | ⟨_, d, e, tail, hd, hinside⟩
  · rw [hd, List.length_singleton] at hle
    omega
  · rw [hd] at hc
    exact hinside b (hc.subset (List.mem_append_right part List.mem_cons_self))

theorem le_toNat_of_getLast? {c : Char} (h : (String.utf8EncodeChar c).getLast? = some b)
    (hb : 128 ≤ b.toNat) : 128 ≤ c.toNat := by
  rcases utf8EncodeChar_cases c with ⟨d, hd, hc⟩ | ⟨hc, _⟩
  · rw [hd, List.getLast?_singleton, Option.some.injEq] at h
    rwa [← hc, toNat_asChar, h]
  · exact hc

/-- A byte of ASCII goes on with no part of a character. -/
theorem IsSubpart.concat {part rest : List UInt8} (h : IsSubpart part rest) (hb : b.toNat < 128) :
    IsSubpart part (rest ++ [b]) := by
  have hfront : part ++ rest ≠ [] := List.append_ne_nil_of_left_ne_nil h.isPart.ne_nil rest
  have hwhole : ¬Begins (part ++ rest ++ [b]) := fun hbegins =>
    absurd (le_toNat_of_begins hfront hbegins) (by omega)
  refine ⟨h.isPart, fun c hc => ?_, fun other hother hpart => ?_⟩
  · rw [← List.append_assoc, List.prefix_concat_iff] at hc
    rcases hc with hc | hc
    · exact hwhole ⟨c, hc ▸ List.prefix_rfl⟩
    · exact h.unreadable c hc
  · rw [← List.append_assoc, List.prefix_concat_iff] at hother
    rcases hother with rfl | hother
    · rcases hpart with hlength | ⟨_, hbegins⟩
      · have hpos := List.length_pos_iff.2 hfront
        rw [List.length_append, List.length_singleton] at hlength
        omega
      · exact absurd hbegins hwhole
    · exact h.longest other hother hpart

/-- A byte of ASCII is read as its character, whatever stands in front of it. -/
theorem Reads.concat (h : Reads bytes text) (hb : b.toNat < 128) :
    Reads (bytes ++ [b]) (text ++ [Char.ofNat b.toNat]) := by
  induction h with
  | nil =>
    have hchar : String.utf8EncodeChar (Char.ofNat b.toNat) = [b] := by
      rw [utf8EncodeChar_one hb, UInt8.ofNat_toNat]
    have hone := Reads.char (Char.ofNat b.toNat) .nil
    rwa [hchar] at hone
  | char c _ ih =>
    rw [List.append_assoc]
    exact .char c ih
  | subpart hpart _ ih =>
    rw [List.append_assoc]
    exact .subpart (hpart.concat hb) ih

/-- Where a character stands for a part of the bytes, the last character stands for that part if no
bytes stand behind it. -/
theorem exists_getLast?_append {part rest : List UInt8} (c : Char) (hrest : Reads rest text)
    (hpart : part.getLast? = some b → 128 ≤ c.toNat)
    (ih : rest.getLast? = some b → ∃ d, text.getLast? = some d ∧ 128 ≤ d.toNat)
    (hlast : (part ++ rest).getLast? = some b) :
    ∃ d, (c :: text).getLast? = some d ∧ 128 ≤ d.toNat := by
  rw [List.getLast?_append, Option.or_eq_some_iff] at hlast
  rw [List.getLast?_cons]
  rcases hlast with hlast | ⟨hnone, hlast⟩
  · obtain ⟨d, hd, hle⟩ := ih hlast
    rw [hd]
    exact ⟨d, rfl, hle⟩
  · rw [List.getLast?_eq_none_iff] at hnone
    rw [hnone, reads_iff] at hrest
    rw [← hrest]
    exact ⟨c, rfl, hpart hlast⟩

/-- A last byte that is none of ASCII is read as a last character that is none of ASCII. -/
theorem Reads.exists_getLast? (h : Reads bytes text) (hlast : bytes.getLast? = some b)
    (hb : 128 ≤ b.toNat) : ∃ c, text.getLast? = some c ∧ 128 ≤ c.toNat := by
  induction h with
  | nil => cases hlast
  | char c hrest ih =>
    exact exists_getLast?_append c hrest (fun hpart => le_toNat_of_getLast? hpart hb) ih hlast
  | subpart _ hrest ih =>
    exact exists_getLast?_append replacement hrest (fun _ => by decide) ih hlast

/-! ## Padding -/

/-- Padding may be dropped before the bytes are read or from the text. -/
theorem dropPadding_decode {isPadding : Char → Bool} {padding : List UInt8}
    (hascii : ∀ n < 128, isPadding (Char.ofNat n) = decide (UInt8.ofNat n ∈ padding))
    (hchar : ∀ c, 128 ≤ c.toNat → isPadding c = false)
    (hbyte : padding.all (·.toNat < 128) = true) (bytes : List UInt8) :
    dropPadding isPadding (decode bytes) = decode (bytes.rdropWhile (· ∈ padding)) := by
  change (decode bytes).rdropWhile isPadding = _
  induction bytes using List.reverseRecOn with
  | nil => rfl
  | append_singleton bytes b ih =>
    have hstay (hpad : b ∉ padding) : (bytes ++ [b]).rdropWhile (· ∈ padding) = bytes ++ [b] :=
      List.rdropWhile_concat_neg _ _ _ (by rwa [decide_eq_true_iff])
    by_cases hb : b.toNat < 128
    · have hread : decode (bytes ++ [b]) = decode bytes ++ [Char.ofNat b.toNat] :=
        reads_iff.1 ((reads_iff.2 rfl).concat hb)
      have hsame : isPadding (Char.ofNat b.toNat) = decide (b ∈ padding) := by
        rw [hascii b.toNat hb, UInt8.ofNat_toNat]
      by_cases hpad : b ∈ padding
      · have hdrop : (bytes ++ [b]).rdropWhile (· ∈ padding) = bytes.rdropWhile (· ∈ padding) :=
          List.rdropWhile_concat_pos _ _ _ (decide_eq_true hpad)
        rw [hdrop, hread, ← ih]
        exact List.rdropWhile_concat_pos _ _ _ (hsame.trans (decide_eq_true hpad))
      · rw [hstay hpad, hread]
        exact List.rdropWhile_concat_neg _ _ _ (by rwa [hsame, decide_eq_true_iff])
    · obtain ⟨c, hlast, hle⟩ := (reads_iff.2 rfl : Reads (bytes ++ [b]) _).exists_getLast?
        List.getLast?_concat (Nat.le_of_not_lt hb)
      obtain ⟨front, hfront⟩ := List.getLast?_eq_some_iff.1 hlast
      have hpad : b ∉ padding := fun hmem =>
        hb (of_decide_eq_true (List.all_eq_true.1 hbyte b hmem))
      rw [hstay hpad, hfront]
      exact List.rdropWhile_concat_neg _ _ _ (by rw [hchar c hle]; exact Bool.false_ne_true)

end Utf8

/-! ## Fields -/

namespace TextField

/-- A text field whose bytes are within one move reads those at the indices it covers, and it ends
behind them, or at the last position. -/
theorem read_eq_between (field : TextField) {bytes : Payload}
    (hsize : (bytes.size : Int) ≤ Position.highest) {p : Int} (hp : Position.InRange p)
    {width : Nat} (hspan : (field.span width : Int) ≤ Position.highest) :
    field.read width bytes p =
      (String.ofList (field.ofBytes width (bytes.between p (p + field.span width))),
        min (p + field.span width) Position.highest) := by
  have hwindow := (Payload.window_eq_between_iff bytes hsize hp (field.span width)).2 (.inl hspan)
  rw [read, hwindow, Position.advance_eq_min hp hspan]

/-- The bytes that a field may be padded with. -/
def padding : TextField → List UInt8
  | .raw => []
  | .blankPadded => [0x20, 0x09, 0x0A, 0x0D, 0x00]
  | .zeroPadded => [0x00]
  | .hex _ => []

theorem isBlankPadding_of_le {c : Char} (hc : 128 ≤ c.toNat) : isBlankPadding c = false := by
  have hne {d : Char} (hd : d.toNat < 128) : (c == d) = false :=
    beq_false_of_ne (Bytewise.ne_of_le hc hd)
  rw [isBlankPadding, hne (by decide), hne (by decide), hne (by decide), hne (by decide),
    hne (by decide)]
  rfl

/-- Without what it may be padded with a field reads all its bytes. -/
theorem ofBytes_eq_decode {field : TextField} (hfield : ∀ first, field ≠ .hex first) (width : Nat)
    (bytes : List UInt8) :
    field.ofBytes width bytes = Utf8.decode (bytes.rdropWhile (· ∈ field.padding)) := by
  match field, hfield with
  | .raw, _ =>
    rw [ofBytes, List.rdropWhile_eq_self_iff.2]
    intro _
    simp [padding]
  | .blankPadded, _ =>
    exact Utf8.dropPadding_decode (by decide) (fun _ => isBlankPadding_of_le) (by decide) bytes
  | .zeroPadded, _ =>
    refine Utf8.dropPadding_decode (by decide) (fun c hc => ?_) (by decide) bytes
    exact beq_false_of_ne (Bytewise.ne_of_le hc (by decide))
  | .hex first, hfield => exact absurd rfl (hfield first)

/-- **What text fields read.**

A text field reads those bytes at the indices it covers that the payload holds, without the longest
run of padding at their end, and it ends behind its width, or at the last position.  Ill-formed
bytes are read as replacement characters, one for each maximal subpart, and the bytes of a text are
read as that text.  A field without padding reads all the bytes. -/
theorem read_padded (field : TextField) (hfield : ∀ first, field ≠ .hex first) (bytes : Payload)
    (hsize : (bytes.size : Int) ≤ Position.highest) (p : Int) (hp : Position.InRange p)
    (width : Nat) (hwidth : (width : Int) ≤ Position.highest) :
    let window := bytes.between p (p + width)
    let kept := window.rdropWhile (· ∈ field.padding)
    (∃ text, Utf8.Reads kept text ∧
      field.read width bytes p = (String.ofList text, min (p + width) Position.highest)) ∧
      (∀ text : String, kept = text.toUTF8.data.toList → (field.read width bytes p).1 = text) ∧
      (field = .raw → kept = window) := by
  intro window kept
  have hspan : field.span width = width := by
    match field, hfield with
    | .raw, _ | .blankPadded, _ | .zeroPadded, _ => rfl
    | .hex first, hfield => exact absurd rfl (hfield first)
  have hread : field.read width bytes p =
      (String.ofList (Utf8.decode kept), min (p + width) Position.highest) := by
    rw [read_eq_between field hsize hp (by rwa [hspan]), hspan, ofBytes_eq_decode hfield]
  refine ⟨⟨Utf8.decode kept, Utf8.reads_iff.2 rfl, hread⟩, fun text htext => ?_, ?_⟩
  · rw [hread, htext, Bytewise.toUTF8_eq_encode, Utf8.decode_encode, String.ofList_toList]
  · rintro rfl
    exact List.rdropWhile_eq_self_iff.2 fun _ => by simp [padding]

/-- Two of three bytes of a character in front of some padding, read from in front of the payload to
behind it, and a character of two bytes. -/
theorem read_padded_straddling :
    let bytes : Payload := #[0x41, 0xE2, 0x82, 0x20, 0x00]
    let character : Payload := #[0xC3, 0xA9]
    (∀ first, TextField.blankPadded ≠ .hex first) ∧ (∀ first, TextField.raw ≠ .hex first) ∧
      (bytes.size : Int) ≤ Position.highest ∧ (character.size : Int) ≤ Position.highest ∧
      Position.InRange (-1) ∧ Position.InRange 0 ∧ ((9 : Nat) : Int) ≤ Position.highest ∧
      ((2 : Nat) : Int) ≤ Position.highest ∧
      TextField.blankPadded.read 9 bytes (-1) = ("A\ufffd", 8) ∧
      (TextField.raw.read 2 character 0).1 = "é" := by
  intro bytes character
  have hblank : ∀ first, TextField.blankPadded ≠ .hex first := by
    intro first h
    cases h
  have hraw : ∀ first, TextField.raw ≠ .hex first := by
    intro first h
    cases h
  refine ⟨hblank, hraw, by decide, by decide, by decide, by decide, by decide, by decide, ?_, ?_⟩
  · obtain ⟨⟨text, htext, hread⟩, _⟩ :=
      read_padded .blankPadded hblank bytes (by decide) (-1) (by decide) 9 (by decide)
    have hkept : (bytes.between (-1) (-1 + (9 : Nat))).rdropWhile
        (· ∈ TextField.blankPadded.padding) = [0x41, 0xE2, 0x82] := by decide +kernel
    rw [hkept, Utf8.reads_iff] at htext
    rw [hread, ← htext]
    decide +kernel
  · obtain ⟨_, htext, _⟩ :=
      read_padded .raw hraw character (by decide) 0 (by decide) 2 (by decide)
    exact htext "é" (by decide +kernel)

end TextField

end BinaryLayout
