import BinaryLayout.Proofs.Encoding.Utf8
import Mathlib.Data.Nat.Find

/-!
# What ill-formed bytes are read as

The reader of UTF-8 looks at one byte at a time.  This module says what it reads without the reader:
where a character begins, that character is read, and elsewhere one replacement character stands for
the longest part of a character that is there, or for a byte that is no part of any.

There are three groups.

* Readings.  `Reads` has one rule for each of the cases, and `IsSubpart` says which bytes a
  replacement character stands for.
* Characters that have begun.  `Pending.Follows` ties what the reader keeps to the bytes that it has
  seen: however it goes on, a character with these bytes comes out.  So any byte that the reader
  takes goes on with a character (`Pending.Follows.begins`), and it takes every byte that does
  (`Pending.IsKept.range_of_begins`).
* Texts.  `reads_iff` says that the reader follows the rules, and that they leave no choice.
-/

namespace BinaryLayout.Utf8

/-! ## Readings -/

/-- Whether these bytes are the first ones of a character, or all of them. -/
def Begins (part : List UInt8) : Prop := ∃ c, part <+: String.utf8EncodeChar c

/-- Whether one replacement character may stand for these bytes: a byte, or more of them that begin
a character. -/
def IsPart (part : List UInt8) : Prop := part.length = 1 ∨ part ≠ [] ∧ Begins part

/-- Whether `part`, with `rest` behind it, is a maximal subpart of ill-formed bytes: no character
begins there, and no longer part does. -/
structure IsSubpart (part rest : List UInt8) : Prop where
  isPart : IsPart part
  unreadable : ∀ c, ¬String.utf8EncodeChar c <+: part ++ rest
  longest : ∀ other, other <+: part ++ rest → IsPart other → other.length ≤ part.length

/-- What bytes are read as. -/
inductive Reads : List UInt8 → List Char → Prop
  | nil : Reads [] []
  | char (c : Char) {rest : List UInt8} {text : List Char} (hrest : Reads rest text) :
      Reads (String.utf8EncodeChar c ++ rest) (c :: text)
  | subpart {part rest : List UInt8} {text : List Char} (hpart : IsSubpart part rest)
      (hrest : Reads rest text) : Reads (part ++ rest) (replacement :: text)

theorem Begins.of_prefix {part other : List UInt8} (h : Begins other) (hpart : part <+: other) :
    Begins part := by
  obtain ⟨c, hc⟩ := h
  exact ⟨c, hpart.trans hc⟩

theorem IsPart.ne_nil {part : List UInt8} (h : IsPart part) : part ≠ [] := by
  rcases h with h | h
  · rintro rfl
    cases h
  · exact h.1

/-! ## Characters that have begun -/

/-- Whether `pending` is what is kept of a character of which `part` has been seen. However it goes
on, a character with these bytes comes out. -/
inductive Pending.Follows : List UInt8 → Pending → Prop
  | last {part : List UInt8} {bits : Nat} {low high : UInt8}
      (h : ∀ b, low ≤ b → b ≤ high →
        String.utf8EncodeChar (Char.ofNat (bits * 64 + (b.toNat - 0x80))) = part ++ [b]) :
      Follows part ⟨bits, 1, low, high⟩
  | more {part : List UInt8} {bits needs : Nat} {low high : UInt8}
      (h : ∀ b, low ≤ b → b ≤ high →
        Follows (part ++ [b]) ⟨bits * 64 + (b.toNat - 0x80), needs + 1, 0x80, 0xBF⟩) :
      Follows part ⟨bits, needs + 2, low, high⟩

section

variable {n m k : Nat}

theorem toNat_val_ofNat (h : n.isValidChar) : (Char.ofNat n).val.toNat = n := by
  rw [Char.ofNat, dif_pos h]
  rfl

theorem utf8EncodeChar_one (hn : n < 128) :
    String.utf8EncodeChar (Char.ofNat n) = [UInt8.ofNat n] := by
  have hvalid : n.isValidChar := .inl (by omega)
  rw [String.utf8EncodeChar, toNat_val_ofNat hvalid, if_pos (by omega)]

theorem utf8EncodeChar_two (hlow : 2 ≤ n) (hn : n < 32) (hm : m < 64) :
    String.utf8EncodeChar (Char.ofNat (n * 64 + m)) =
      [UInt8.ofNat (n + 192), UInt8.ofNat (m + 128)] := by
  have hvalid : (n * 64 + m).isValidChar := .inl (by omega)
  have hfirst : (n * 64 + m) / 64 % 32 = n := by omega
  have hlast : (n * 64 + m) % 64 = m := by omega
  rw [String.utf8EncodeChar, toNat_val_ofNat hvalid, if_neg (by omega), if_pos (by omega), hfirst,
    hlast]

/-- The second byte keeps out overlong forms and surrogates. -/
theorem utf8EncodeChar_three (hn : n < 16) (hm : m < 64) (hk : k < 64) (hlow : n = 0 → 32 ≤ m)
    (hhigh : n = 13 → m < 32) :
    String.utf8EncodeChar (Char.ofNat ((n * 64 + m) * 64 + k)) =
      [UInt8.ofNat (n + 224), UInt8.ofNat (m + 128), UInt8.ofNat (k + 128)] := by
  have hvalid : ((n * 64 + m) * 64 + k).isValidChar := by
    show _ ∨ _
    omega
  have hfirst : ((n * 64 + m) * 64 + k) / 4096 % 16 = n := by omega
  have hsecond : ((n * 64 + m) * 64 + k) / 64 % 64 = m := by omega
  have hlast : ((n * 64 + m) * 64 + k) % 64 = k := by omega
  rw [String.utf8EncodeChar, toNat_val_ofNat hvalid, if_neg (by omega), if_neg (by omega),
    if_pos (by omega), hfirst, hsecond, hlast]

/-- The second byte keeps out overlong forms and numbers above the last character. -/
theorem utf8EncodeChar_four {l : Nat} (hn : n < 5) (hm : m < 64) (hk : k < 64) (hl : l < 64)
    (hlow : n = 0 → 16 ≤ m) (hhigh : n = 4 → m < 16) :
    String.utf8EncodeChar (Char.ofNat (((n * 64 + m) * 64 + k) * 64 + l)) =
      [UInt8.ofNat (n + 240), UInt8.ofNat (m + 128), UInt8.ofNat (k + 128),
        UInt8.ofNat (l + 128)] := by
  have hvalid : (((n * 64 + m) * 64 + k) * 64 + l).isValidChar := by
    show _ ∨ _
    omega
  have hfirst : (((n * 64 + m) * 64 + k) * 64 + l) / 262144 % 8 = n := by omega
  have hsecond : (((n * 64 + m) * 64 + k) * 64 + l) / 4096 % 64 = m := by omega
  have hthird : (((n * 64 + m) * 64 + k) * 64 + l) / 64 % 64 = k := by omega
  have hlast : (((n * 64 + m) * 64 + k) * 64 + l) % 64 = l := by omega
  rw [String.utf8EncodeChar, toNat_val_ofNat hvalid, if_neg (by omega), if_neg (by omega),
    if_neg (by omega), hfirst, hsecond, hthird, hlast]

end

namespace Pending.Follows

/-- A byte in a range of bytes from 128 to 191 has six bits of a character. -/
theorem bits_of_range {low high b : UInt8} (hlow : low ≤ b) (hhigh : b ≤ high)
    (hleast : 128 ≤ low.toNat) (hmost : high.toNat ≤ 191) :
    b = UInt8.ofNat (b.toNat - 0x80 + 128) ∧ b.toNat - 0x80 < 64 ∧
      low.toNat ≤ b.toNat - 0x80 + 128 ∧ b.toNat - 0x80 + 128 ≤ high.toNat := by
  rw [UInt8.le_iff_toNat_le] at hlow hhigh
  have hsum : b.toNat - 0x80 + 128 = b.toNat := by omega
  rw [hsum]
  exact ⟨UInt8.ofNat_toNat.symm, by omega, hlow, hhigh⟩

theorem two {n : Nat} (hlow : 2 ≤ n) (hn : n < 32) :
    Follows [UInt8.ofNat (n + 192)] ⟨n, 1, 0x80, 0xBF⟩ := by
  refine .last fun b hb hb' => ?_
  obtain ⟨hbyte, hbits, _⟩ := bits_of_range hb hb' (by decide) (by decide)
  rw [utf8EncodeChar_two hlow hn hbits, ← hbyte]
  rfl

theorem three {n : Nat} (hn : n < 16) :
    Follows [UInt8.ofNat (n + 224)]
      ⟨n, 2, if n = 0 then 0xA0 else 0x80, if n = 13 then 0x9F else 0xBF⟩ := by
  refine .more fun b hb hb' => .last fun d hd hd' => ?_
  obtain ⟨hbyte, hbits, hleast, hmost⟩ :=
    bits_of_range hb hb' (by split <;> decide) (by split <;> decide)
  obtain ⟨hbyte', hbits', _⟩ := bits_of_range hd hd' (by decide) (by decide)
  have hlow (h : n = 0) : 32 ≤ b.toNat - 0x80 := by
    rw [if_pos h] at hleast
    change 160 ≤ _ at hleast
    omega
  have hhigh (h : n = 13) : b.toNat - 0x80 < 32 := by
    rw [if_pos h] at hmost
    change _ ≤ 159 at hmost
    omega
  rw [utf8EncodeChar_three hn hbits hbits' hlow hhigh, ← hbyte, ← hbyte']
  rfl

theorem four {n : Nat} (hn : n < 5) :
    Follows [UInt8.ofNat (n + 240)]
      ⟨n, 3, if n = 0 then 0x90 else 0x80, if n = 4 then 0x8F else 0xBF⟩ := by
  refine .more fun b hb hb' => .more fun d hd hd' => .last fun e he he' => ?_
  obtain ⟨hbyte, hbits, hleast, hmost⟩ :=
    bits_of_range hb hb' (by split <;> decide) (by split <;> decide)
  obtain ⟨hbyte', hbits', _⟩ := bits_of_range hd hd' (by decide) (by decide)
  obtain ⟨hbyte'', hbits'', _⟩ := bits_of_range he he' (by decide) (by decide)
  have hlow (h : n = 0) : 16 ≤ b.toNat - 0x80 := by
    rw [if_pos h] at hleast
    change 144 ≤ _ at hleast
    omega
  have hhigh (h : n = 4) : b.toNat - 0x80 < 16 := by
    rw [if_pos h] at hmost
    change _ ≤ 143 at hmost
    omega
  rw [utf8EncodeChar_four hn hbits hbits' hbits'' hlow hhigh, ← hbyte, ← hbyte', ← hbyte'']
  rfl

/-- A byte in the range that is asked for goes on with a character. -/
theorem begins {part : List UInt8} {pending : Pending} (h : pending.Follows part) {b : UInt8}
    (hlow : pending.low ≤ b) (hhigh : b ≤ pending.high) : Begins (part ++ [b]) := by
  induction h generalizing b with
  | @last part bits low high h => exact ⟨_, [], (List.append_nil _).trans (h b hlow hhigh).symm⟩
  | @more part bits needs low high h ih =>
    -- the byte behind may be any with six bits, such as the least one
    have hleast : (0x80 : UInt8) ≤ 0x80 := by decide
    have hmost : (0x80 : UInt8) ≤ 0xBF := by decide
    have hnext : Begins (part ++ [b] ++ [0x80]) := ih b hlow hhigh hleast hmost
    exact hnext.of_prefix (List.prefix_append _ _)

end Pending.Follows

/-- No character begins with a byte that only goes on with one, or with 192 or 193. -/
theorem lead_low : ∀ n < 66, lead (UInt8.ofNat (n + 128)) = ([replacement], none) := by decide

/-- No character begins with a byte above 244. -/
theorem lead_high : ∀ n < 11, lead (UInt8.ofNat (n + 245)) = ([replacement], none) := by decide

/-- A first byte is a character, begins one, or is no part of any. -/
theorem lead_cases (b : UInt8) :
    (lead b = ([Char.ofNat b.toNat], none) ∧ String.utf8EncodeChar (Char.ofNat b.toNat) = [b]) ∨
      (∃ pending, lead b = ([], some pending) ∧ pending.Follows [b]) ∨
      lead b = ([replacement], none) := by
  have hlt : b.toNat < 256 := b.toNat_lt
  have hform {k : Nat} (hk : k ≤ b.toNat) : ∃ n, b.toNat = n + k ∧ UInt8.ofNat (n + k) = b :=
    ⟨b.toNat - k, by omega, by rw [Nat.sub_add_cancel hk, UInt8.ofNat_toNat]⟩
  by_cases hone : b.toNat < 128
  · have hlead := lead_one b.toNat hone
    have hchar := utf8EncodeChar_one hone
    rw [UInt8.ofNat_toNat] at hlead hchar
    exact .inl ⟨hlead, hchar⟩
  by_cases htwo : 194 ≤ b.toNat ∧ b.toNat < 224
  · obtain ⟨n, hn, hbyte⟩ := hform (Nat.le_trans (by decide : 192 ≤ 194) htwo.1)
    rw [← hbyte]
    exact .inr (.inl ⟨_, lead_two n (by omega) (by omega), .two (by omega) (by omega)⟩)
  by_cases hthree : 224 ≤ b.toNat ∧ b.toNat < 240
  · obtain ⟨n, hn, hbyte⟩ := hform hthree.1
    rw [← hbyte]
    exact .inr (.inl ⟨_, lead_three n (by omega), .three (by omega)⟩)
  by_cases hfour : 240 ≤ b.toNat ∧ b.toNat < 245
  · obtain ⟨n, hn, hbyte⟩ := hform hfour.1
    rw [← hbyte]
    exact .inr (.inl ⟨_, lead_four n (by omega), .four (by omega)⟩)
  by_cases hfront : b.toNat < 194
  · obtain ⟨n, hn, hbyte⟩ := hform (Nat.le_of_not_lt hone)
    rw [← hbyte]
    exact .inr (.inr (lead_low n (by omega)))
  · obtain ⟨n, hn, hbyte⟩ := hform (show 245 ≤ b.toNat by omega)
    rw [← hbyte]
    exact .inr (.inr (lead_high n (by omega)))

/-- The text that `bytes` hold behind a character that has begun, or behind none. -/
def readFrom : Option Pending → List UInt8 → List Char
  | none, [] => []
  | some _, [] => [replacement]
  | pending, b :: rest => (step pending b).1 ++ readFrom (step pending b).2 rest

theorem finish_foldl (progress : Progress) (bytes : List UInt8) :
    finish (bytes.foldl feed progress) = progress.1.reverse ++ readFrom progress.2 bytes := by
  induction bytes generalizing progress with
  | nil =>
    obtain ⟨chars, pending | _⟩ := progress
    · exact (List.append_nil _).symm
    · exact List.reverse_cons
  | cons b rest ih =>
    rw [List.foldl_cons, ih, readFrom, feed, List.reverse_append, List.reverse_reverse,
      List.append_assoc]

theorem decode_eq_readFrom (bytes : List UInt8) : decode bytes = readFrom none bytes :=
  finish_foldl ([], none) bytes

theorem readFrom_utf8EncodeChar (c : Char) (rest : List UInt8) :
    readFrom none (String.utf8EncodeChar c ++ rest) = c :: readFrom none rest := by
  rw [← decode_eq_readFrom, decode, List.foldl_append, foldl_feed_utf8EncodeChar, finish_foldl]
  rfl

/-- A byte in the range that is asked for is taken. -/
theorem step_of_range {pending : Pending} {b : UInt8}
    (h : pending.low ≤ b ∧ b ≤ pending.high) :
    step (some pending) b =
      if pending.needs = 1 then ([Char.ofNat (pending.bits * 64 + (b.toNat - 0x80))], none)
      else ([], some ⟨pending.bits * 64 + (b.toNat - 0x80), pending.needs - 1, 0x80, 0xBF⟩) := by
  rw [step, if_pos h]

/-- Any other byte is read as if nothing had begun. -/
theorem readFrom_of_not_range {pending : Pending} {b : UInt8}
    (h : ¬(pending.low ≤ b ∧ b ≤ pending.high)) (rest : List UInt8) :
    readFrom (some pending) (b :: rest) = replacement :: readFrom none (b :: rest) := by
  have hstep : step (some pending) b = (replacement :: (lead b).1, (lead b).2) := if_neg h
  rw [readFrom, hstep]
  rfl

/-- What has begun is read as a character in the end. -/
theorem readFrom_some_ne_nil (pending : Pending) (bytes : List UInt8) :
    readFrom (some pending) bytes ≠ [] := by
  induction bytes generalizing pending with
  | nil => exact List.cons_ne_nil _ _
  | cons b rest ih =>
    by_cases hrange : pending.low ≤ b ∧ b ≤ pending.high
    · rw [readFrom, step_of_range hrange]
      split
      · exact List.cons_ne_nil _ _
      · exact ih _
    · rw [readFrom_of_not_range hrange]
      exact List.cons_ne_nil _ _

theorem readFrom_cons_ne_nil (b : UInt8) (rest : List UInt8) : readFrom none (b :: rest) ≠ [] := by
  rw [readFrom, step]
  rcases lead_cases b with ⟨hlead, _⟩ | ⟨pending, hlead, _⟩ | hlead
  · rw [hlead]
    exact List.cons_ne_nil _ _
  · rw [hlead]
    exact readFrom_some_ne_nil pending rest
  · rw [hlead]
    exact List.cons_ne_nil _ _

/-- Whether `pending` is what the reader keeps when it has seen `part`. -/
def Pending.IsKept (pending : Pending) (part : List UInt8) : Prop :=
  ∀ bytes, readFrom none (part ++ bytes) = readFrom (some pending) bytes

theorem readFrom_of_append {part tail : List UInt8} {c : Char}
    (h : part ++ tail = String.utf8EncodeChar c) : readFrom none (part ++ tail) = [c] := by
  rw [h, ← List.append_nil (String.utf8EncodeChar c), readFrom_utf8EncodeChar]
  rfl

/-- The reader takes a byte that goes on with a character: if it did not, it would read more than
that character. -/
theorem Pending.IsKept.range_of_begins {pending : Pending} {part : List UInt8}
    (hkept : pending.IsKept part) {b : UInt8} (h : Begins (part ++ [b])) :
    pending.low ≤ b ∧ b ≤ pending.high := by
  obtain ⟨c, tail, hc⟩ := h
  rw [List.append_assoc] at hc
  have hone := readFrom_of_append hc
  by_contra hrange
  rw [hkept, List.singleton_append, readFrom_of_not_range hrange] at hone
  exact readFrom_cons_ne_nil b tail (List.cons.inj hone).2

theorem not_begins_of_lead {b : UInt8} (h : lead b = ([replacement], none)) : ¬Begins [b] := by
  rintro ⟨c, tail, hc⟩
  have hone := readFrom_of_append hc
  have hread : readFrom none ([b] ++ tail) = replacement :: readFrom none tail := by
    rw [List.singleton_append, readFrom, step, h]
    rfl
  rw [hread, List.cons.injEq] at hone
  obtain ⟨rfl, hrest⟩ := hone
  cases tail with
  | nil => cases hc
  | cons d tail => exact readFrom_cons_ne_nil d tail hrest

/-! ## Texts -/

/-- The rest of a maximal subpart is passed over. -/
theorem readFrom_part {pending : Pending} {part more rest : List UInt8}
    (hfollows : pending.Follows part) (hkept : pending.IsKept part)
    (h : IsSubpart (part ++ more) rest) :
    readFrom none (part ++ more ++ rest) = replacement :: readFrom none rest := by
  induction more generalizing part pending with
  | nil =>
    rw [List.append_nil, hkept rest]
    cases rest with
    | nil => rfl
    | cons b rest =>
      refine readFrom_of_not_range (fun hrange => ?_) rest
      have hbegins := hfollows.begins hrange.1 hrange.2
      have hle := h.longest (part ++ [b]) ⟨rest, by simp⟩ (.inr ⟨by simp, hbegins⟩)
      rw [List.append_nil, List.length_append, List.length_singleton] at hle
      omega
  | cons b more ih =>
    have hsplit : part ++ b :: more = part ++ [b] ++ more := List.append_cons part b more
    have hbegins : Begins (part ++ [b]) := by
      rcases h.isPart with hlength | ⟨_, hbegins⟩
      · have hpart : part = [] := List.eq_nil_of_length_eq_zero (by simp at hlength; omega)
        rw [hpart] at hkept
        exact absurd (hkept []).symm (readFrom_some_ne_nil _ _)
      · exact hbegins.of_prefix ⟨more, hsplit.symm⟩
    have hrange := hkept.range_of_begins hbegins
    cases hfollows with
    | last hchar =>
      obtain ⟨c, hc⟩ : ∃ c, String.utf8EncodeChar c = part ++ [b] := ⟨_, hchar b hrange.1 hrange.2⟩
      refine absurd ?_ (h.unreadable c)
      rw [hc, hsplit, List.append_assoc]
      exact List.prefix_append _ _
    | more hnext =>
      rw [hsplit] at h ⊢
      refine ih (hnext b hrange.1 hrange.2) (fun bytes => ?_) h
      rw [List.append_assoc, hkept, List.singleton_append, readFrom, step_of_range hrange]
      rfl

/-- A maximal subpart is read as one replacement character. -/
theorem readFrom_subpart {part rest : List UInt8} (h : IsSubpart part rest) :
    readFrom none (part ++ rest) = replacement :: readFrom none rest := by
  obtain ⟨b, more, rfl⟩ := List.exists_cons_of_ne_nil h.isPart.ne_nil
  rcases lead_cases b with ⟨_, hchar⟩ | ⟨pending, hlead, hfollows⟩ | hlead
  · exact absurd ⟨more ++ rest, congrArg (· ++ (more ++ rest)) hchar⟩ (h.unreadable _)
  · have hkept : pending.IsKept [b] := by
      intro bytes
      rw [List.singleton_append, readFrom, step, hlead]
      rfl
    exact readFrom_part hfollows hkept h
  · have hmore : more = [] := by
      rcases h.isPart with hlength | ⟨_, hbegins⟩
      · exact List.eq_nil_of_length_eq_zero (Nat.succ.inj hlength)
      · exact absurd (hbegins.of_prefix ⟨more, rfl⟩) (not_begins_of_lead hlead)
    rw [hmore, List.singleton_append, readFrom, step, hlead]
    rfl

variable {bytes : List UInt8} {text : List Char}

theorem decode_of_reads (h : Reads bytes text) : decode bytes = text := by
  rw [decode_eq_readFrom]
  induction h with
  | nil => rfl
  | char c _ ih => rw [readFrom_utf8EncodeChar, ih]
  | subpart hpart _ ih => rw [readFrom_subpart hpart, ih]

open Classical in
/-- Where no character begins there is a maximal subpart. -/
theorem exists_subpart (hbytes : bytes ≠ []) (h : ∀ c, ¬String.utf8EncodeChar c <+: bytes) :
    ∃ part rest, part ++ rest = bytes ∧ IsSubpart part rest := by
  let n := Nat.findGreatest (fun n => IsPart (bytes.take n)) bytes.length
  have hlength : 1 ≤ bytes.length := List.length_pos_iff.2 hbytes
  have hone : IsPart (bytes.take 1) := .inl (by rw [List.length_take]; omega)
  have hpart : IsPart (bytes.take n) :=
    Nat.findGreatest_spec (P := fun n => IsPart (bytes.take n)) hlength hone
  have hsplit : bytes.take n ++ bytes.drop n = bytes := List.take_append_drop n bytes
  refine ⟨bytes.take n, bytes.drop n, hsplit, hpart, by rwa [hsplit], fun other hother hpart => ?_⟩
  rw [hsplit] at hother
  rw [List.prefix_iff_eq_take.1 hother] at hpart
  have hle : other.length ≤ n := Nat.le_findGreatest hother.length_le hpart
  rw [List.length_take]
  exact Nat.le_min.2 ⟨hle, hother.length_le⟩

/-- Any bytes are read. -/
theorem exists_reads (bytes : List UInt8) : ∃ text, Reads bytes text := by
  induction hlength : bytes.length using Nat.strong_induction_on generalizing bytes with
  | _ n ih =>
    -- what stands behind a first part is shorter
    have hrest (part rest : List UInt8) (hpart : part ≠ []) (h : part ++ rest = bytes) :
        ∃ text, Reads rest text := by
      refine ih rest.length ?_ rest rfl
      have hpos := List.length_pos_iff.2 hpart
      rw [← hlength, ← h, List.length_append]
      omega
    by_cases hbytes : bytes = []
    · exact ⟨[], hbytes ▸ .nil⟩
    by_cases hchar : ∃ c, String.utf8EncodeChar c <+: bytes
    · obtain ⟨c, rest, h⟩ := hchar
      obtain ⟨text, htext⟩ := hrest _ rest String.utf8EncodeChar_ne_nil h
      exact ⟨c :: text, h ▸ .char c htext⟩
    · obtain ⟨part, rest, h, hpart⟩ := exists_subpart hbytes (not_exists.1 hchar)
      obtain ⟨text, htext⟩ := hrest part rest hpart.isPart.ne_nil h
      exact ⟨replacement :: text, h ▸ .subpart hpart htext⟩

/-- The rules read any bytes as exactly one text, which is the one that the reader finds. -/
theorem reads_iff : Reads bytes text ↔ decode bytes = text := by
  refine ⟨decode_of_reads, ?_⟩
  rintro rfl
  obtain ⟨text, htext⟩ := exists_reads bytes
  rwa [decode_of_reads htext]

/-- Two of three bytes of a character are one part, and the bytes of a surrogate are three. -/
example : decode [0xE2, 0x82, 0x41, 0xED, 0xA0, 0x80] =
    ['\ufffd', 'A', '\ufffd', '\ufffd', '\ufffd'] := by decide +kernel

end BinaryLayout.Utf8
