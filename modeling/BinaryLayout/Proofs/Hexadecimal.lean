import BinaryLayout.Proofs.Bytewise.Agreement
import BinaryLayout.Proofs.Fields.HexDigits

/-!
# Hexadecimal digits of either case

Digits are read byte by byte, and what is read from them can be said in characters: the bytes of a
longer character are no digits, so all bytes of a text are digits exactly if all its characters are.

There are two groups.

* Digits.  `Hex.digit?` is the value of a character, of either case, and `value?_eq` compares it
  with what is read from a byte.
* Pairs.  `Hex.halves` are the values that digits must have to stand for some bytes.
  `readPairs_of_halves` reads these bytes, and `halves_or_notDigit` finds the first byte that is no
  digit where there is one.
-/

namespace BinaryLayout

open Bytewise (asChar)

namespace Hex

/-! ## Digits -/

/-- The value of a hexadecimal digit of either case. -/
def digit? (c : Char) : Option Nat := digits.idxOf? c.toLower

theorem value?_ofNat : ∀ n < 256, value? (UInt8.ofNat n) = digit? (Char.ofNat n) := by
  decide +kernel

/-- A byte has the value of the character with its number. -/
theorem value?_eq (b : UInt8) : value? b = digit? (asChar b) := by
  have h := value?_ofNat b.toNat b.toNat_lt
  rwa [UInt8.ofNat_toNat] at h

/-- Where all values are known there is one everywhere. -/
theorem isSome_of_map_eq {α : Type} {value : α → Option Nat} {found : List α} {values : List Nat}
    (h : found.map value = values.map some) : ∀ a ∈ found, (value a).isSome = true := by
  intro a ha
  have hmem : value a ∈ values.map some := h ▸ List.mem_map_of_mem ha
  obtain ⟨n, _, hn⟩ := List.mem_map.1 hmem
  rw [← hn]
  rfl

theorem digit?_lt {c : Char} {n : Nat} (h : digit? c = some n) : n < 16 := by
  obtain ⟨hlt, _⟩ := List.idxOf?_eq_some_iff.1 h
  exact hlt

theorem digit?_digitChar : ∀ n < 16, digits.idxOf? (Nat.digitChar n) = some n := by decide

theorem lt_of_mem_digits {c : Char} (h : c ∈ digits) : c.toNat < 128 := by
  have hall : digits.all (fun c => c.toNat < 128) = true := by decide
  exact of_decide_eq_true (List.all_eq_true.1 hall c h)

/-- Digits are characters of ASCII. -/
theorem digit?_eq_none {c : Char} (h : 128 ≤ c.toNat) : digit? c = none := by
  have hlower : c.toLower = c := by
    refine dif_neg ?_
    rintro ⟨_, hle⟩
    have hle : c.toNat ≤ 'Z'.toNat := UInt32.le_iff_toNat_le.1 hle
    exact absurd (Nat.le_trans h hle) (by decide)
  rw [digit?, hlower, List.idxOf?_eq_none_iff]
  intro hmem
  have hlt := lt_of_mem_digits hmem
  omega

/-- No byte of a longer character is a digit. -/
theorem value?_eq_none {b : UInt8} (h : 128 ≤ b.toNat) : value? b = none := by
  rw [value?_eq]
  exact digit?_eq_none ((Bytewise.toNat_asChar b).symm ▸ h)

/-- The bytes of digits have the values of the digits. -/
theorem map_value?_encode {chars : List Char} (h : ∀ c ∈ chars, (digit? c).isSome = true) :
    (Utf8.encode chars).map value? = chars.map digit? := by
  induction chars with
  | nil => rfl
  | cons c chars ih =>
    rw [List.forall_mem_cons] at h
    rw [Utf8.encode_cons, List.map_append, ih h.2, List.map_cons]
    rcases Bytewise.utf8EncodeChar_cases c with ⟨b, hb, rfl⟩ | ⟨hc, _⟩
    · rw [hb, List.map_singleton, value?_eq]
      rfl
    · rw [digit?_eq_none hc] at h
      cases h.1

/-- Characters whose bytes are digits are digits. -/
theorem isSome_digit?_of_encode {chars : List Char}
    (h : ∀ b ∈ Utf8.encode chars, (value? b).isSome = true) :
    ∀ c ∈ chars, (digit? c).isSome = true := by
  intro c hc
  have hbytes {b : UInt8} (hb : b ∈ String.utf8EncodeChar c) : (value? b).isSome = true :=
    h b (List.mem_flatMap.2 ⟨c, hc, hb⟩)
  rcases Bytewise.utf8EncodeChar_cases c with ⟨b, hb, rfl⟩ | ⟨_, b, d, tail, hb, hinside⟩
  · have hvalue := hbytes (hb ▸ List.mem_singleton_self b)
    rwa [value?_eq] at hvalue
  · have hvalue := hbytes (hb ▸ List.mem_cons_self)
    rw [value?_eq_none (hinside b List.mem_cons_self)] at hvalue
    cases hvalue

/-! ## Pairs -/

/-- The halves of some bytes, the high one first. -/
def halves (bytes : List UInt8) : List Nat := bytes.flatMap fun b => [b.toNat / 16, b.toNat % 16]

theorem halves_cons (b : UInt8) (bytes : List UInt8) :
    halves (b :: bytes) = b.toNat / 16 :: b.toNat % 16 :: halves bytes := rfl

theorem length_halves (bytes : List UInt8) : (halves bytes).length = 2 * bytes.length := by
  induction bytes with
  | nil => rfl
  | cons b bytes ih =>
    rw [halves_cons, List.length_cons, List.length_cons, ih, List.length_cons]
    omega

/-- The two halves of one of the bytes. -/
theorem getElem?_halves {bytes : List UInt8} {i : Nat} {b : UInt8} (h : bytes[i]? = some b) :
    (halves bytes)[2 * i]? = some (b.toNat / 16) ∧
      (halves bytes)[2 * i + 1]? = some (b.toNat % 16) := by
  induction bytes generalizing i with
  | nil => cases h
  | cons d bytes ih =>
    rw [halves_cons]
    cases i with
    | zero =>
      obtain rfl : d = b := Option.some.inj h
      exact ⟨rfl, rfl⟩
    | succ i => exact ih h

/-- The value at a place, where all values are known. -/
theorem bind_of_map_eq {α : Type} {value : α → Option Nat} {found : List α} {values : List Nat}
    (h : found.map value = values.map some) {k n : Nat} (hn : values[k]? = some n) :
    found[k]?.bind value = some n := by
  have hk : (found.map value)[k]? = some (some n) := by rw [h, List.getElem?_map, hn]; rfl
  rw [List.getElem?_map] at hk
  obtain ⟨a, ha, hvalue⟩ := Option.map_eq_some_iff.1 hk
  rw [ha, Option.bind_some, hvalue]

/-- Two halves make a byte. -/
theorem exists_byte_of_halves {m n : Nat} (hm : m < 16) (hn : n < 16) :
    ∃ b : UInt8, UInt8.ofNat (16 * m + n) = b ∧ b.toNat / 16 = m ∧ b.toNat % 16 = n := by
  have hbyte : (UInt8.ofNat (16 * m + n)).toNat = (16 * m + n) % 256 := UInt8.toNat_ofNat'
  exact ⟨_, rfl, by omega, by omega⟩

/-- Bytes whose values are the halves of others are read as these. -/
theorem readPairs_of_halves {found data : List UInt8}
    (h : found.map value? = (halves data).map some) (done : Array UInt8) (i : Nat) :
    readPairs done i found = .ok (done ++ data) := by
  induction data generalizing found done i with
  | nil =>
    rw [List.map_eq_nil_iff.1 h]
    exact congrArg Except.ok Array.appendList_nil.symm
  | cons b data ih =>
    rw [halves_cons, List.map_cons, List.map_cons] at h
    obtain ⟨x, tail, rfl, hx, htail⟩ := List.map_eq_cons_iff.1 h
    obtain ⟨y, rest, rfl, hy, hrest⟩ := List.map_eq_cons_iff.1 htail
    rw [readPairs, hx, hy]
    dsimp only
    rw [Nat.div_add_mod, UInt8.ofNat_toNat, ih hrest, Array.appendList_cons]

/-- An even number of bytes has the values of halves, or there is a first byte that is no digit. -/
theorem halves_or_notDigit : ∀ (found : List UInt8), found.length % 2 = 0 →
    (∃ data, found.map value? = (halves data).map some) ∨
      ∃ k b, found[k]? = some b ∧ value? b = none ∧
        (∀ j < k, ∀ d ∈ found[j]?, (value? d).isSome = true) ∧
        ∀ done i, readPairs done i found = .error (.notDigit b (i + k))
  | [], _ => .inl ⟨[], rfl⟩
  | [_], heven => absurd heven (Nat.one_ne_zero)
  | a :: b :: rest, heven => by
    cases ha : value? a with
    | none =>
      refine .inr ⟨0, a, rfl, ha, fun j hj => absurd hj (Nat.not_lt_zero j), fun done i => ?_⟩
      rw [readPairs, ha]
      rfl
    | some high =>
      cases hb : value? b with
      | none =>
        refine .inr ⟨1, b, rfl, hb, fun j hj d hd => ?_, fun done i => ?_⟩
        · obtain rfl : j = 0 := by omega
          obtain rfl : a = d := Option.some.inj hd
          rw [ha]
          rfl
        · rw [readPairs, ha, hb]
      | some low =>
        have hrest : rest.length % 2 = 0 := by
          rw [List.length_cons, List.length_cons] at heven
          omega
        rcases halves_or_notDigit rest hrest with ⟨data, hdata⟩ | ⟨k, c, hc, hnone, hbefore, herror⟩
        · have hhigh := digit?_lt ((value?_eq a).symm.trans ha)
          have hlow := digit?_lt ((value?_eq b).symm.trans hb)
          obtain ⟨byte, _, hdiv, hmod⟩ := exists_byte_of_halves hhigh hlow
          refine .inl ⟨byte :: data, ?_⟩
          rw [halves_cons, hdiv, hmod, List.map_cons, List.map_cons, ha, hb, hdata]
          rfl
        · refine .inr ⟨k + 2, c, hc, hnone, fun j hj d hd => ?_, fun done i => ?_⟩
          · rcases j with _ | _ | j
            · obtain rfl : a = d := Option.some.inj hd
              rw [ha]
              rfl
            · obtain rfl : b = d := Option.some.inj hd
              rw [hb]
              rfl
            · exact hbefore j (by omega) d hd
          · rw [readPairs, ha, hb]
            dsimp only
            rw [herror, Nat.add_assoc, Nat.add_comm 2 k]

/-- The digits of some bytes have the values of their halves. -/
theorem map_idxOf?_write (data : List UInt8) :
    (write .high data).map digits.idxOf? = (halves data).map some := by
  induction data with
  | nil => rfl
  | cons b data ih =>
    rw [write_cons, digitsOf, halves_cons, List.map_append, ih, List.map_cons, List.map_cons,
      digit?_digitChar _ (div_lt_sixteen b), digit?_digitChar _ (mod_lt_sixteen b)]
    rfl

/-- So have digits of either case. -/
theorem map_digit?_of_toLower {chars : List Char} {data : List UInt8}
    (h : chars.map Char.toLower = write .high data) :
    chars.map digit? = (halves data).map some := by
  rw [← map_idxOf?_write, ← h, List.map_map]
  rfl

end Hex

end BinaryLayout
