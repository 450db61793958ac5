import BinaryLayout.Text.Utf8

/-!
# Reading back UTF-8

The reader takes one byte at a time and never looks ahead.  So what the bytes of a character do to
it is settled byte by byte, and what the bytes of a text do to it character by character.

* Bytes.  `lead_two`, `lead_three` and `lead_four` say what a first byte begins, with the range of
  the byte behind it: overlong forms and surrogates are kept out there.  `feed_more` and `feed_last`
  take the other bytes.
* Characters.  `foldl_feed_utf8EncodeChar` reads one character from any progress between two.
* Texts.  `decode_encode` is the round trip, `zero_notMem_encode` says that no zero byte comes from
  a text without a zero character, and `length_le_utf8ByteSize` counts bytes.
-/

namespace BinaryLayout.Utf8

/-- The bytes of a text. -/
def encode (text : List Char) : List UInt8 := text.flatMap String.utf8EncodeChar

/-! ## Bytes -/

/-- A byte below 128 is a character. -/
theorem lead_one : ∀ n < 128, lead (UInt8.ofNat n) = ([Char.ofNat n], none) := by decide

/-- The first of two bytes. The two least ones would begin overlong forms. -/
theorem lead_two :
    ∀ n < 32, 2 ≤ n → lead (UInt8.ofNat (n + 192)) = ([], some ⟨n, 1, 0x80, 0xBF⟩) := by
  decide

/-- The first of three bytes. -/
theorem lead_three :
    ∀ n < 16, lead (UInt8.ofNat (n + 224)) =
      ([], some ⟨n, 2, if n = 0 then 0xA0 else 0x80, if n = 13 then 0x9F else 0xBF⟩) := by
  decide

/-- The first of four bytes. -/
theorem lead_four :
    ∀ n < 5, lead (UInt8.ofNat (n + 240)) =
      ([], some ⟨n, 3, if n = 0 then 0x90 else 0x80, if n = 4 then 0x8F else 0xBF⟩) := by
  decide

theorem feed_lead {b : UInt8} {pending : Pending} (h : lead b = ([], some pending))
    (chars : List Char) : feed (chars, none) b = (chars, some pending) := by
  rw [feed, step, h]
  rfl

/-- Whether six more bits may come next. -/
def Pending.Admits (c : Pending) (m : Nat) : Prop :=
  m < 64 ∧ c.low.toNat ≤ m + 128 ∧ m + 128 ≤ c.high.toNat

/-- A range with exceptions at its two ends. -/
theorem Pending.admits_ite {m : Nat} {first last : Prop} [Decidable first] [Decidable last]
    {low high : UInt8} (hm : m < 64) (hlow : first → low.toNat ≤ m + 128)
    (hhigh : last → m + 128 ≤ high.toNat) (bits needs : Nat) :
    Admits ⟨bits, needs, if first then low else 0x80, if last then high else 0xBF⟩ m := by
  refine ⟨hm, ?_, ?_⟩
  · dsimp only
    split
    · next h => exact hlow h
    · show 128 ≤ m + 128
      omega
  · dsimp only
    split
    · next h => exact hhigh h
    · show m + 128 ≤ 191
      omega

/-- Behind the second byte any six bits may come. -/
theorem Pending.admits_of_lt {m : Nat} (h : m < 64) (bits needs : Nat) :
    Admits ⟨bits, needs, 0x80, 0xBF⟩ m := by
  refine ⟨h, ?_, ?_⟩
  · show 128 ≤ m + 128
    omega
  · show m + 128 ≤ 191
    omega

theorem step_of_admits {c : Pending} {m : Nat} (h : c.Admits m) :
    step (some c) (UInt8.ofNat (m + 128)) =
      if c.needs = 1 then ([Char.ofNat (c.bits * 64 + m)], none)
      else ([], some ⟨c.bits * 64 + m, c.needs - 1, 0x80, 0xBF⟩) := by
  obtain ⟨hm, hlow, hhigh⟩ := h
  have hsize : m + 128 < UInt8.size := by
    show m + 128 < 256
    omega
  have hbyte : (UInt8.ofNat (m + 128)).toNat = m + 128 := UInt8.toNat_ofNat_of_lt' hsize
  have hrange : c.low ≤ UInt8.ofNat (m + 128) ∧ UInt8.ofNat (m + 128) ≤ c.high := by
    rw [UInt8.le_iff_toNat_le, UInt8.le_iff_toNat_le, hbyte]
    exact ⟨hlow, hhigh⟩
  rw [step, if_pos hrange, hbyte, Nat.add_sub_cancel]

section

variable {bits m : Nat} {low high : UInt8} (chars : List Char)

/-- A byte behind which more are needed. -/
theorem feed_more {needs : Nat} (h : Pending.Admits ⟨bits, needs + 2, low, high⟩ m) :
    feed (chars, some ⟨bits, needs + 2, low, high⟩) (UInt8.ofNat (m + 128)) =
      (chars, some ⟨bits * 64 + m, needs + 1, 0x80, 0xBF⟩) := by
  rw [feed, step_of_admits h, if_neg (by simp)]
  rfl

/-- The last byte of a character. -/
theorem feed_last (h : Pending.Admits ⟨bits, 1, low, high⟩ m) :
    feed (chars, some ⟨bits, 1, low, high⟩) (UInt8.ofNat (m + 128)) =
      (Char.ofNat (bits * 64 + m) :: chars, none) := by
  rw [feed, step_of_admits h, if_pos rfl]
  rfl

end

/-! ## Characters -/

/-- The second of three bytes: no overlong form and no surrogate. -/
theorem admits_second_of_three {n : Nat} (hlow : 2047 < n) (hhigh : n ≤ 65535)
    (hvalid : n < 0xD800 ∨ 0xDFFF < n) :
    Pending.Admits ⟨n / 4096 % 16, 2, if n / 4096 % 16 = 0 then 0xA0 else 0x80,
      if n / 4096 % 16 = 13 then 0x9F else 0xBF⟩ (n / 64 % 64) := by
  refine Pending.admits_ite (Nat.mod_lt _ (by decide)) (fun hfirst => ?_) (fun hlast => ?_) _ _
  · show 160 ≤ n / 64 % 64 + 128
    omega
  · show n / 64 % 64 + 128 ≤ 159
    omega

/-- The second of four bytes: no overlong form, and nothing above the last character. -/
theorem admits_second_of_four {n : Nat} (hlow : 65535 < n) (hhigh : n < 0x110000) :
    Pending.Admits ⟨n / 262144 % 8, 3, if n / 262144 % 8 = 0 then 0x90 else 0x80,
      if n / 262144 % 8 = 4 then 0x8F else 0xBF⟩ (n / 4096 % 64) := by
  refine Pending.admits_ite (Nat.mod_lt _ (by decide)) (fun hfirst => ?_) (fun hlast => ?_) _ _
  · show 144 ≤ n / 4096 % 64 + 128
    omega
  · show n / 4096 % 64 + 128 ≤ 143
    omega

/-- Between two characters, the bytes of a character are read as that character. -/
theorem foldl_feed_utf8EncodeChar (c : Char) (chars : List Char) :
    (String.utf8EncodeChar c).foldl feed (chars, none) = (c :: chars, none) := by
  have hvalid : c.val.toNat < 0xD800 ∨ 0xDFFF < c.val.toNat ∧ c.val.toNat < 0x110000 := c.valid
  have hchar : Char.ofNat c.val.toNat = c := Char.ofNat_toNat c
  have hnext (bits needs n : Nat) : Pending.Admits ⟨bits, needs, 0x80, 0xBF⟩ (n % 64) :=
    Pending.admits_of_lt (Nat.mod_lt n (by decide)) bits needs
  rw [String.utf8EncodeChar]
  generalize c.val.toNat = n at hvalid hchar
  split
  · rw [List.foldl_cons, List.foldl_nil, feed, step, lead_one n (by omega), hchar]
    rfl
  split
  · have hbits : n / 64 % 32 * 64 + n % 64 = n := by omega
    rw [List.foldl_cons, feed_lead (lead_two _ (by omega) (by omega)), List.foldl_cons,
      feed_last _ (hnext _ _ _), hbits, hchar, List.foldl_nil]
  split
  · have hbits : (n / 4096 % 16 * 64 + n / 64 % 64) * 64 + n % 64 = n := by omega
    have hsecond := admits_second_of_three (n := n) (by omega) (by omega) (by omega)
    rw [List.foldl_cons, feed_lead (lead_three _ (by omega)), List.foldl_cons,
      feed_more _ hsecond, List.foldl_cons, feed_last _ (hnext _ _ _), hbits, hchar, List.foldl_nil]
  · have hbits :
        ((n / 262144 % 8 * 64 + n / 4096 % 64) * 64 + n / 64 % 64) * 64 + n % 64 = n := by omega
    have hsecond := admits_second_of_four (n := n) (by omega) (by omega)
    rw [List.foldl_cons, feed_lead (lead_four _ (by omega)), List.foldl_cons,
      feed_more _ hsecond, List.foldl_cons, feed_more _ (hnext _ _ _), List.foldl_cons,
      feed_last _ (hnext _ _ _), hbits, hchar, List.foldl_nil]

/-- A zero byte comes from a zero character only: all bytes of the longer forms are at least
128. -/
theorem eq_zero_of_zero_mem_utf8EncodeChar {c : Char} (h : 0 ∈ String.utf8EncodeChar c) :
    c = '\x00' := by
  have hbyte {n : Nat} (hn : n < 256) (h : (0 : UInt8) = UInt8.ofNat n) : n = 0 := by
    have hnat := congrArg UInt8.toNat h
    rw [UInt8.toNat_ofNat_of_lt' hn] at hnat
    exact hnat.symm
  rw [String.utf8EncodeChar] at h
  split at h
  · have hzero := hbyte (by omega) (List.mem_singleton.1 h)
    exact Char.ext (UInt32.toNat_inj.1 hzero)
  split at h
  · simp only [List.mem_cons, List.not_mem_nil, or_false] at h
    rcases h with h | h <;> exact absurd (hbyte (by omega) h) (by omega)
  split at h
  · simp only [List.mem_cons, List.not_mem_nil, or_false] at h
    rcases h with h | h | h <;> exact absurd (hbyte (by omega) h) (by omega)
  · simp only [List.mem_cons, List.not_mem_nil, or_false] at h
    rcases h with h | h | h | h <;> exact absurd (hbyte (by omega) h) (by omega)

/-! ## Texts -/

theorem encode_cons (c : Char) (text : List Char) :
    encode (c :: text) = String.utf8EncodeChar c ++ encode text := List.flatMap_cons

theorem encode_append (text more : List Char) :
    encode (text ++ more) = encode text ++ encode more := List.flatMap_append

theorem foldl_feed_encode (text chars : List Char) :
    (encode text).foldl feed (chars, none) = (text.reverse ++ chars, none) := by
  induction text generalizing chars with
  | nil => rfl
  | cons c text ih =>
    rw [encode_cons, List.foldl_append, foldl_feed_utf8EncodeChar, ih, List.reverse_cons,
      List.append_assoc, List.singleton_append]

/-- The bytes of a text are read as that text. -/
theorem decode_encode (text : List Char) : decode (encode text) = text := by
  rw [decode, foldl_feed_encode, finish, List.append_nil, List.reverse_reverse]

/-- There is no zero byte in a text without a zero character. -/
theorem zero_notMem_encode {text : List Char} (h : '\x00' ∉ text) : 0 ∉ encode text := by
  intro hmem
  obtain ⟨c, hc, hzero⟩ := List.mem_flatMap.1 hmem
  rw [eq_zero_of_zero_mem_utf8EncodeChar hzero] at hc
  exact h hc

/-- A character takes at least one byte. -/
theorem length_le_utf8ByteSize (source : String) : source.toList.length ≤ source.utf8ByteSize := by
  have hlist (text : List Char) : text.length ≤ (String.ofList text).utf8ByteSize := by
    induction text with
    | nil => exact Nat.zero_le _
    | cons c text ih =>
      have hfirst : String.ofList (c :: text) = String.singleton c ++ String.ofList text := by
        rw [String.singleton_eq_ofList, ← String.ofList_append, List.singleton_append]
      have hpos := c.utf8Size_pos
      rw [hfirst, String.utf8ByteSize_append, String.utf8ByteSize_singleton, List.length_cons]
      omega
  have hsource := hlist source.toList
  rwa [String.ofList_toList] at hsource

end BinaryLayout.Utf8
