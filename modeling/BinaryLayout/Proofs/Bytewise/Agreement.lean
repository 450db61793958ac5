import BinaryLayout.Proofs.Bytewise.Reader
import BinaryLayout.Proofs.Layout.Closings
import BinaryLayout.Proofs.Layout.Idle

/-!
# Bytes and characters

A reader of bytes stands between two characters or inside one.  In front of it are then the last
bytes of that character (`Inside`), which are at least 128, and the bytes of a text.

* Between two characters it finds what a reader of characters finds, unless a longer character
  stands for the code: then it has taken the first byte only (`Agree`).
* Inside a character it passes over the bytes left of it: they are no digit, begin no name and mean
  nothing as codes.  In a name it takes them with the other bytes of the name.

A name begins with an ASCII character and ends in front of one.  So its bytes are those of whole
characters, and the text in an error begins with a character.
-/

namespace BinaryLayout.Bytewise

open Utf8 (encode encode_cons encode_append)

/-! ## Bytes inside a character -/

/-- Bytes that no ASCII character has. -/
def Inside (bytes : List UInt8) : Prop := ∀ b ∈ bytes, 128 ≤ b.toNat

theorem toNat_asChar (b : UInt8) : (asChar b).toNat = b.toNat := by
  have hlt : b.toNat < 256 := b.toNat_lt
  have hvalid : b.toNat.isValidChar := .inl (by omega)
  rw [asChar, Char.ofNat, dif_pos hvalid]
  rfl

/-- A character is one byte of its own, or several bytes that no other character begins with. -/
theorem utf8EncodeChar_cases (c : Char) :
    (∃ b, String.utf8EncodeChar c = [b] ∧ asChar b = c) ∨
      128 ≤ c.toNat ∧ ∃ b d tail, String.utf8EncodeChar c = b :: d :: tail ∧
        Inside (b :: d :: tail) := by
  have hbyte (n : Nat) (hn : n < 256) (hle : 128 ≤ n) : 128 ≤ (UInt8.ofNat n).toNat := by
    rw [UInt8.toNat_ofNat_of_lt' hn]
    exact hle
  have hchar : Char.ofNat c.val.toNat = c := Char.ofNat_toNat c
  have hval : c.toNat = c.val.toNat := rfl
  rw [String.utf8EncodeChar, hval]
  generalize c.val.toNat = n at hchar
  split
  · next h =>
    refine .inl ⟨_, rfl, ?_⟩
    rw [asChar, UInt8.toNat_ofNat_of_lt' (show n < 256 by omega), hchar]
  split
  · refine .inr ⟨by omega, _, _, _, rfl, ?_⟩
    simp only [Inside, List.mem_cons, List.not_mem_nil, or_false, forall_eq_or_imp, forall_eq]
    exact ⟨hbyte _ (by omega) (by omega), hbyte _ (by omega) (by omega)⟩
  split
  · refine .inr ⟨by omega, _, _, _, rfl, ?_⟩
    simp only [Inside, List.mem_cons, List.not_mem_nil, or_false, forall_eq_or_imp, forall_eq]
    exact ⟨hbyte _ (by omega) (by omega), hbyte _ (by omega) (by omega),
      hbyte _ (by omega) (by omega)⟩
  · refine .inr ⟨by omega, _, _, _, rfl, ?_⟩
    simp only [Inside, List.mem_cons, List.not_mem_nil, or_false, forall_eq_or_imp, forall_eq]
    exact ⟨hbyte _ (by omega) (by omega), hbyte _ (by omega) (by omega),
      hbyte _ (by omega) (by omega), hbyte _ (by omega) (by omega)⟩

/-- An ASCII character is one byte. -/
theorem exists_byte {c : Char} (h : c.toNat < 128) :
    ∃ b, asChar b = c ∧ String.utf8EncodeChar c = [b] := by
  rcases utf8EncodeChar_cases c with ⟨b, hb, hc⟩ | ⟨hle, _⟩
  · exact ⟨b, hc, hb⟩
  · omega

theorem ne_of_le {c d : Char} (hc : 128 ≤ c.toNat) (hd : d.toNat < 128) : c ≠ d := by
  rintro rfl
  omega

theorem isDigit_of_le {c : Char} (hc : 128 ≤ c.toNat) : c.isDigit = false := by
  have hhigh : ¬c.val ≤ '9'.val := by
    intro hle
    have hdigit : c.toNat ≤ '9'.toNat := UInt32.le_iff_toNat_le.1 hle
    exact absurd (Nat.le_trans hc hdigit) (by decide)
  exact Bool.and_eq_false_iff.2 (.inr (decide_eq_false hhigh))

theorem isAsciiBlank_of_le {c : Char} (hc : 128 ≤ c.toNat) : Text.isAsciiBlank c = false := by
  simp [Text.isAsciiBlank, ne_of_le hc (show ' '.toNat < 128 by decide),
    ne_of_le hc (show '\t'.toNat < 128 by decide), ne_of_le hc (show '\n'.toNat < 128 by decide),
    ne_of_le hc (show '\x0c'.toNat < 128 by decide), ne_of_le hc (show '\r'.toNat < 128 by decide)]

/-! ## Digits and blanks -/

/-- What holds of ASCII characters only is looked for byte by byte. -/
theorem takeWhile_encode {p : Char → Bool} (hp : ∀ c, 128 ≤ c.toNat → p c = false)
    (text : List Char) :
    ((encode text).takeWhile fun b => p (asChar b)).map asChar = text.takeWhile p ∧
      (encode text).dropWhile (fun b => p (asChar b)) = encode (text.dropWhile p) := by
  induction text with
  | nil => exact ⟨rfl, rfl⟩
  | cons c text ih =>
    rw [encode_cons]
    rcases utf8EncodeChar_cases c with ⟨b, hb, rfl⟩ | ⟨hc, b, d, tail, hb, hinside⟩
    · rw [hb, List.singleton_append]
      by_cases hpass : p (asChar b) = true
      · simp [hpass, ih]
      · simp [hpass, encode_cons, hb]
    · have hfirst : 128 ≤ (asChar b).toNat := by
        rw [toNat_asChar]
        exact hinside b (by simp)
      rw [hb]
      simp [hp _ hfirst, hp _ hc, encode_cons, hb]

theorem readCount_encode (text : List Char) :
    readCount (encode text) = ((Count.read text).1, encode (text.dropWhile Char.isDigit)) := by
  obtain ⟨htake, hdrop⟩ := takeWhile_encode (fun _ => isDigit_of_le) text
  rw [readCount, htake, hdrop]
  rfl

theorem readCount_inside {b : UInt8} (hb : 128 ≤ b.toNat) (bytes : List UInt8) :
    readCount (b :: bytes) = (none, b :: bytes) := by
  have hdigit : (asChar b).isDigit = false := isDigit_of_le ((toNat_asChar b).symm ▸ hb)
  simp [readCount, hdigit]

/-! ## Names -/

theorem isIdle_asChar {b : UInt8} (hb : 128 ≤ b.toNat) : IsIdle (asChar b) :=
  isIdle_of_le ((toNat_asChar b).symm ▸ hb)

theorem asChar_ne {b : UInt8} (hb : 128 ≤ b.toNat) {c : Char} (hc : c.toNat < 128) :
    asChar b ≠ c :=
  ne_of_le ((toNat_asChar b).symm ▸ hb) hc

/-- The search for a name passes over what is left of a character. -/
theorem seek_append {tail : List UInt8} (h : Inside tail) (bytes : List UInt8) :
    seek (tail ++ bytes) = seek bytes := by
  induction tail with
  | nil => rfl
  | cons b tail ih =>
    have hb : 128 ≤ b.toNat := h b List.mem_cons_self
    have hidle := isIdle_asChar hb
    rw [List.cons_append, seek.eq_def]
    simp only [hidle.start, beq_false_of_ne (asChar_ne hb (show '}'.toNat < 128 by decide)),
      hidle.plain, Bool.or_self, Bool.false_eq_true, if_false]
    exact ih fun d hd => h d (List.mem_cons_of_mem _ hd)

/-- Behind its first byte a character goes on inside. -/
theorem exists_cons (c : Char) : ∃ b tail, String.utf8EncodeChar c = b :: tail ∧ Inside tail := by
  rcases utf8EncodeChar_cases c with ⟨b, hb, _⟩ | ⟨_, b, d, tail, hb, hinside⟩
  · exact ⟨b, [], hb, fun d hd => absurd hd (List.not_mem_nil)⟩
  · exact ⟨b, d :: tail, hb, fun x hx => hinside x (List.mem_cons_of_mem _ hx)⟩

/-- The search for a name stops at the same character. -/
theorem seek_encode (text : List Char) : seek (encode text) = encode (FieldName.seek text) := by
  fun_induction FieldName.seek text with
  | case1 => rfl
  | case2 c rest h =>
    have hlow : c.toNat < 128 := by
      rcases Bool.or_eq_true _ _ ▸ h with hstart | hbrace
      · exact lt_of_isStart hstart
      · rw [beq_iff_eq] at hbrace
        subst hbrace
        decide
    obtain ⟨b, rfl, hb⟩ := exists_byte hlow
    rw [encode_cons, hb, List.singleton_append, seek.eq_def]
    exact if_pos h
  | case3 => decide
  | case4 d rest _ ih =>
    -- The backslash hides the first byte of the character, and the others are passed over.
    obtain ⟨b, tail, hb, htail⟩ := exists_cons d
    have hescape : seek (encode ('\\' :: d :: rest)) = seek (tail ++ encode rest) := by
      rw [encode_cons, encode_cons, hb]
      rfl
    rw [hescape, seek_append htail, ih]
  | case5 c rest hstop hslash ih =>
    rcases utf8EncodeChar_cases c with ⟨b, hb, rfl⟩ | ⟨_, b, d, tail, hb, hinside⟩
    · rw [encode_cons, hb, List.singleton_append, seek.eq_def]
      simp only [hstop, hslash, Bool.false_eq_true, if_false]
      exact ih
    · rw [encode_cons, hb, seek_append hinside, ih]

/-- A name takes what is left of a character as it is. -/
theorem readName?_append {tail : List UInt8} (h : Inside tail) (bytes : List UInt8) :
    readName? (tail ++ bytes) =
      (readName? bytes).map fun (name, rest) => (tail ++ name, rest) := by
  induction tail with
  | nil => simp
  | cons b tail ih =>
    have hb : 128 ≤ b.toNat := h b List.mem_cons_self
    rw [List.cons_append, readName?.eq_def]
    simp only [asChar_ne hb (show ':'.toNat < 128 by decide),
      asChar_ne hb (show '}'.toNat < 128 by decide), (isIdle_asChar hb).plain, if_false]
    rw [ih fun d hd => h d (List.mem_cons_of_mem _ hd), Option.map_map]
    rfl

/-- A backslash takes the first byte of the character behind it, and the name takes the others. -/
theorem readName?_escape (c : Char) (bytes : List UInt8) :
    readName? (encode ['\\', c] ++ bytes) =
      (readName? bytes).map fun (name, rest) => (encode (FieldName.unescape c) ++ name, rest) := by
  have hencode : encode ['\\', c] = 92 :: String.utf8EncodeChar c := by
    simp [encode]
    rfl
  have hread (b : UInt8) (rest : List UInt8) : readName? (92 :: b :: rest) =
      (readName? rest).map fun (name, rest) => (unescape b ++ name, rest) := by
    rw [readName?.eq_def]
    rfl
  rcases utf8EncodeChar_cases c with ⟨b, hb, rfl⟩ | ⟨hc, b, d, tail, hb, hinside⟩
  · have hsame : unescape b = encode (FieldName.unescape (asChar b)) := by
      unfold unescape FieldName.unescape
      split
      · simp [encode, hb]
      · rw [hencode, hb]
        rfl
    rw [hencode, hb, ← hsame]
    exact hread b bytes
  · have hbyte : 128 ≤ b.toNat := hinside b List.mem_cons_self
    have hkept : unescape b = [92, b] := by
      refine if_neg ?_
      rintro (h | h)
      · exact asChar_ne hbyte (by decide) h
      · exact asChar_ne hbyte (by decide) h
    have hsame : FieldName.unescape c = ['\\', c] := by
      refine if_neg ?_
      rintro (rfl | rfl)
      · exact absurd hc (by decide)
      · exact absurd hc (by decide)
    have htail : Inside (d :: tail) := fun x hx => hinside x (List.mem_cons_of_mem _ hx)
    rw [hsame, hencode, hb]
    show readName? (92 :: b :: (d :: tail ++ bytes)) = _
    rw [hread, hkept, readName?_append htail, Option.map_map]
    rfl

/-- The bytes of a name are the bytes of its characters. -/
theorem readName?_encode (text : List Char) :
    readName? (encode text) =
      (FieldName.read? text).map fun (name, rest) => (encode name, encode rest) := by
  fun_induction FieldName.read? text with
  | case1 => rfl
  | case2 rest =>
    rw [readName?.eq_def]
    rfl
  | case3 rest =>
    rw [readName?.eq_def]
    rfl
  | case4 => rfl
  | case5 d rest _ _ ih =>
    have hslash : readName? (encode ('\\' :: d :: rest)) =
        (readName? (encode rest)).map fun (name, rest) =>
          (encode (FieldName.unescape d) ++ name, rest) := by
      rw [← readName?_escape, ← encode_append]
      rfl
    rw [hslash, ih, Option.map_map, Option.map_map]
    simp only [Function.comp_def, encode_append]
  | case6 c rest hcolon hbrace hslash ih =>
    have hread : readName? (encode (c :: rest)) =
        (readName? (encode rest)).map fun (name, rest) =>
          (String.utf8EncodeChar c ++ name, rest) := by
      rw [encode_cons]
      rcases utf8EncodeChar_cases c with ⟨b, hb, rfl⟩ | ⟨_, b, d, tail, hb, hinside⟩
      · rw [hb, List.singleton_append, readName?.eq_def]
        simp only [hcolon, hbrace, hslash, if_false]
        rfl
      · rw [hb, readName?_append hinside]
    rw [hread, ih, Option.map_map, Option.map_map]
    simp only [Function.comp_def, encode_cons]

theorem textFrom?_append (front text : List Char) :
    textFrom? (front ++ text) (encode front).length = some text := by
  induction front with
  | nil => cases text <;> rfl
  | cons c front ih =>
    have hlength : (encode (c :: front)).length = c.utf8Size + (encode front).length := by
      rw [encode_cons, List.length_append, String.length_utf8EncodeChar]
    obtain ⟨n, hn⟩ : ∃ n, (encode (c :: front)).length = n + 1 := by
      have hpos : 0 < c.utf8Size := Char.utf8Size_pos c
      exact ⟨(encode (c :: front)).length - 1, by omega⟩
    have hle : c.utf8Size ≤ n + 1 := by omega
    have hrest : n + 1 - c.utf8Size = (encode front).length := by omega
    rw [hn, List.cons_append, textFrom?, if_pos hle, hrest, ih]

section

variable (repair : Repair) {source text : List Char} (h : text <:+ source)

include h

/-- Between two characters the text from there on is quoted. -/
theorem preview_encode : preview repair source (encode text) = FormatError.preview text := by
  obtain ⟨front, rfl⟩ := h
  have hstart : (encode (front ++ text)).length - (encode text).length = (encode front).length := by
    rw [encode_append, List.length_append, Nat.add_sub_cancel]
  rw [preview, hstart, textFrom?_append]
  rfl

/-- The next name is the same one, and the same is left behind it. -/
theorem nextName?_encode :
    nextName? repair source (encode text) =
      (FieldName.next? text).map (Option.map fun (name, rest) => (name, encode rest)) := by
  have hsuffix : FieldName.seek text <:+ source := (FieldName.seek_suffix text).trans h
  rw [nextName?, seek_encode, FieldName.next?]
  generalize FieldName.seek text = found at hsuffix
  cases found with
  | nil => rfl
  | cons c rest =>
    obtain ⟨b, more, hb, hbrace⟩ :
        ∃ b more, encode (c :: rest) = b :: more ∧ (asChar b = '}' ↔ c = '}') := by
      rcases utf8EncodeChar_cases c with ⟨b, hb, rfl⟩ | ⟨hc, b, d, tail, hb, hinside⟩
      · exact ⟨b, encode rest, by rw [encode_cons, hb]; rfl, Iff.rfl⟩
      · refine ⟨b, d :: tail ++ encode rest, by rw [encode_cons, hb]; rfl, ?_⟩
        exact iff_of_false (asChar_ne (hinside b List.mem_cons_self) (by decide))
          (ne_of_le hc (by decide))
    simp only [hb]
    by_cases hend : c = '}'
    · rw [if_pos (hbrace.2 hend), if_pos hend, ← hb]
      rfl
    · rw [if_neg (mt hbrace.1 hend), if_neg hend, ← hb, readName?_encode,
        preview_encode repair hsuffix]
      cases FieldName.read? (c :: rest) with
      | none => rfl
      | some found =>
        obtain ⟨name, after⟩ := found
        have hblank := (takeWhile_encode (fun _ => isAsciiBlank_of_le) after).2
        simp only [Option.map_some, repair.name_encode, hblank]
        rfl

end

/-! ## Tokens -/

/-- No two characters belong together if the second is outside of ASCII. -/
theorem ofPair?_of_le (c : Char) {d : Char} (hd : 128 ≤ d.toNat) : Code.ofPair? c d = none := by
  unfold Code.ofPair?
  split <;> first | rfl | exact absurd hd (by decide)

/-- A character of one byte is the same code, and the same is left behind it. -/
theorem code?_encode {b : UInt8} (hb : String.utf8EncodeChar (asChar b) = [b]) (text : List Char) :
    code? (encode (asChar b :: text)) =
      (Token.code? (asChar b :: text)).map fun (code, rest) => (code, encode rest) := by
  rw [encode_cons, hb, List.singleton_append]
  cases text with
  | nil => rfl
  | cons d rest =>
    rcases utf8EncodeChar_cases d with ⟨x, hx, rfl⟩ | ⟨hd, x, y, tail, hx, hinside⟩
    · rw [encode_cons, hx, List.singleton_append, code?, Token.code?]
      cases Code.ofPair? (asChar b) (asChar x) with
      | none => simp [encode_cons, hx]
      | some code => rfl
    · have hfirst : 128 ≤ (asChar x).toNat := by
        rw [toNat_asChar]
        exact hinside x List.mem_cons_self
      rw [encode_cons, hx, List.cons_append, code?, Token.code?, ofPair?_of_le _ hfirst,
        ofPair?_of_le _ hd]
      simp [encode_cons, hx]

/-- A byte of a longer character means nothing. -/
theorem code?_inside {b : UInt8} (hb : 128 ≤ b.toNat) (bytes : List UInt8) :
    code? (b :: bytes) = some (.blank, bytes) := by
  have hblank := (isIdle_asChar hb).blank
  cases bytes with
  | nil => rw [code?, hblank]
  | cons d bytes => rw [code?, Code.ofPair?_of_blank hblank, hblank]

/-- What readers of bytes and of characters find at the same place of `source`. -/
inductive Agree (source : List Char) :
    Except FormatError (Option (Token × List UInt8)) →
      Except FormatError (Option (Token × List Char)) → Prop
  | error (e : FormatError) : Agree source (.error e) (.error e)
  | ended : Agree source (.ok none) (.ok none)
  | token (token : Token) (rest : List Char) :
    Agree source (.ok (some (token, encode rest))) (.ok (some (token, rest)))
  /-- A longer character means nothing, and neither do the digits behind it, which a reader of bytes
  has not come to. -/
  | begun (name : Option String) {tail : List UInt8} (inside : Inside tail) {rest : List Char}
    (suffix : rest <:+ source) :
    Agree source (.ok (some (⟨name, .blank, none⟩, tail ++ encode rest)))
      (.ok (some (⟨name, .blank, (Count.read rest).1⟩, rest.dropWhile Char.isDigit)))

section

variable {source text : List Char} (h : text <:+ source)

include h

/-- Behind a name, and where there are no names, both read a code and its count. -/
theorem agree_readToken? (name : Option String) :
    Agree source (.ok (readToken? name (encode text))) (.ok (Token.read? name text)) := by
  cases text with
  | nil => exact .ended
  | cons c text =>
    rcases utf8EncodeChar_cases c with ⟨b, hb, rfl⟩ | ⟨hc, b, d, tail, hb, hinside⟩
    · rw [readToken?, code?_encode hb, Token.read?, Option.map_map]
      cases Token.code? (asChar b :: text) with
      | none => exact .ended
      | some found =>
        obtain ⟨code, rest⟩ := found
        simp only [Option.map_some, Function.comp_apply, readCount_encode]
        exact .token ⟨name, code, (Count.read rest).1⟩ (rest.dropWhile Char.isDigit)
    · have htail : Inside (d :: tail) := fun x hx => hinside x (List.mem_cons_of_mem _ hx)
      have hread : readToken? name (encode (c :: text)) =
          some (⟨name, .blank, none⟩, d :: tail ++ encode text) := by
        rw [encode_cons, hb, List.cons_append, readToken?,
          code?_inside (hinside b List.mem_cons_self), Option.map_some]
        simp only [List.cons_append, readCount_inside (htail d List.mem_cons_self)]
      rw [hread, Token.read?, (isIdle_of_le hc).code?]
      exact .begun name htail ((List.suffix_cons c text).trans h)

variable (repair : Repair)

theorem agree_next?_code :
    Agree source (next? repair source false (encode text)) (Token.next? false text) :=
  agree_readToken? h none

/-- Inside a record a name comes first, and the search for it may start inside a character. -/
theorem agree_next?_record {tail : List UInt8} (htail : Inside tail) :
    Agree source (next? repair source true (tail ++ encode text)) (Token.next? true text) := by
  have hname : nextName? repair source (tail ++ encode text) =
      (FieldName.next? text).map (Option.map fun (name, rest) => (name, encode rest)) := by
    rw [nextName?, seek_append htail, ← nextName?, nextName?_encode repair h]
  rw [next?, if_pos rfl, hname, Token.next?, if_pos rfl]
  rcases hnext : FieldName.next? text with e | _ | ⟨name, rest⟩
  · exact .error e
  · exact .ended
  · exact agree_readToken? ((FieldName.suffix_of_next? hnext).trans h) (some (String.ofList name))

end

/-- Inside a character a code is one that means nothing. -/
theorem next?_inside (repair : Repair) (source : List Char) {b : UInt8} (hb : 128 ≤ b.toNat)
    (bytes : List UInt8) :
    next? repair source false (b :: bytes) =
      .ok (some (⟨none, .blank, (readCount bytes).1⟩, (readCount bytes).2)) := by
  rw [next?, if_neg Bool.false_ne_true, readToken?, code?_inside hb]
  rfl

/-! ## Layouts -/

theorem length_encode_le {rest text : List Char} (h : rest <:+ text) :
    (encode rest).length ≤ (encode text).length := by
  obtain ⟨front, rfl⟩ := h
  rw [encode_append, List.length_append]
  omega

/-- Both readers read the same layout, or fail alike, and leave the same behind it. -/
def Same (repair : Repair) (source : List Char) (limit : Nat) (within : Option GroupKind)
    (depth : Nat) (bytes : List UInt8) (text : List Char) : Prop :=
  parseFrom repair source limit within depth bytes =
    (Layout.parseFrom limit within depth text).map fun (layout, left) => (layout, encode left)

section

variable {repair : Repair} {source : List Char} {limit : Nat}

/-- Readers that find the same token read the same layout, if they do so behind the token. -/
theorem same_of_agree {within : Option GroupKind} {depth : Nat} {bytes : List UInt8}
    {text : List Char} (hsuffix : text <:+ source)
    (ih : ∀ within depth tail rest, Inside tail → rest <:+ source →
      (tail ++ encode rest).length < bytes.length →
        Same repair source limit within depth (tail ++ encode rest) rest)
    (h : Agree source (next? repair source (within == some .record) bytes)
      (Token.next? (within == some .record) text)) :
    Same repair source limit within depth bytes text := by
  have hnil : Inside [] := fun b hb => absurd hb List.not_mem_nil
  rw [Same, parseFrom_eq, Layout.parseFrom_eq]
  generalize hbytes : next? repair source (within == some .record) bytes = found at h
  generalize htext : Token.next? (within == some .record) text = token at h
  cases h with
  | error e => rfl
  | ended => cases within <;> rfl
  | begun name inside suffix =>
    have hlt := length_lt_of_next? hbytes
    simp only [Layout.parseFrom_dropWhile_isDigit]
    exact ih within depth _ _ inside suffix hlt
  | token token rest =>
    have hlt : (encode rest).length < bytes.length := length_lt_of_next? hbytes
    have hrest : rest <:+ source := (Token.suffix_of_next? htext).trans hsuffix
    have hsame (within : Option GroupKind) (depth : Nat) :
        parseFrom repair source limit within depth (encode rest) =
          (Layout.parseFrom limit within depth rest).map
            fun (layout, left) => (layout, encode left) :=
      ih within depth [] rest hnil hrest hlt
    cases hcode : token.code with
    | field f =>
      simp only [hcode, hsame]
      cases Layout.parseFrom limit within depth rest <;> rfl
    | blank =>
      simp only [hcode, hsame]
    | closing =>
      simp only [hcode, hsame]
      cases within <;> rfl
    | opening kind =>
      simp only [hcode, hsame]
      by_cases hzero : token.count.getD 1 = 0
      · simp only [if_pos hzero]
        rfl
      by_cases hdepth : limit ≤ depth
      · simp only [if_neg hzero, if_pos hdepth]
        rfl
      simp only [if_neg hzero, if_neg hdepth]
      cases hbody : Layout.parseFrom limit (some kind) (depth + 1) rest with
      | error e => rfl
      | ok parsed =>
        obtain ⟨body, behind⟩ := parsed
        have hbehind : behind <:+ rest := (Layout.reads_of_parseFrom hbody).suffix
        have hmore : parseFrom repair source limit within depth (encode behind) =
            (Layout.parseFrom limit within depth behind).map
              fun (layout, left) => (layout, encode left) :=
          ih within depth [] behind hnil (hbehind.trans hrest)
            (Nat.lt_of_le_of_lt (length_encode_le hbehind) hlt)
        simp only [bind, Except.bind, Except.map, hmore]
        cases Layout.parseFrom limit within depth behind <;> rfl

/-- Wherever a reader of bytes stands, between two characters or inside one, it reads on like a
reader of characters that stands behind what is left of the character. -/
theorem same_append {within : Option GroupKind} {depth : Nat} {tail : List UInt8}
    {text : List Char} (htail : Inside tail) (hsuffix : text <:+ source) :
    Same repair source limit within depth (tail ++ encode text) text := by
  induction hn : (tail ++ encode text).length using Nat.strong_induction_on
    generalizing within depth tail text with
  | _ n ih =>
    have ih' (within : Option GroupKind) (depth : Nat) (more : List UInt8) (rest : List Char)
        (hmore : Inside more) (hrest : rest <:+ source)
        (hlt : (more ++ encode rest).length < (tail ++ encode text).length) :
        Same repair source limit within depth (more ++ encode rest) rest :=
      ih _ (hn ▸ hlt) hmore hrest rfl
    by_cases hrecord : within = some .record
    · subst hrecord
      exact same_of_agree hsuffix ih' (agree_next?_record hsuffix repair htail)
    · have hcode : (within == some .record) = false := beq_false_of_ne hrecord
      cases tail with
      | nil =>
        refine same_of_agree hsuffix ih' ?_
        rw [hcode]
        exact agree_next?_code hsuffix repair
      | cons b tail =>
        have hb : 128 ≤ b.toNat := htail b List.mem_cons_self
        have hrest : Inside tail := fun d hd => htail d (List.mem_cons_of_mem _ hd)
        rw [Same, List.cons_append, parseFrom_eq, hcode, next?_inside repair source hb]
        show parseFrom repair source limit within depth (readCount (tail ++ encode text)).2 = _
        cases tail with
        | nil =>
          -- The character ends here, and digits behind it count for nothing.
          have hdigits : text.dropWhile Char.isDigit <:+ text := List.dropWhile_suffix _
          have hle := length_encode_le hdigits
          rw [List.nil_append, readCount_encode, ← Layout.parseFrom_dropWhile_isDigit]
          refine ih' within depth [] _ hrest (hdigits.trans hsuffix) ?_
          simp only [List.nil_append, List.cons_append, List.length_cons]
          omega
        | cons d tail =>
          have hd : 128 ≤ d.toNat := hrest d List.mem_cons_self
          rw [List.cons_append, readCount_inside hd]
          exact ih' within depth (d :: tail) text hrest hsuffix (Nat.lt_succ_self _)

end

/-! ## Formats -/

/-- The bytes of a text are the bytes of its characters. -/
theorem toUTF8_eq_encode (source : String) : source.toUTF8.data.toList = encode source.toList := by
  have h : source.toList.utf8Encode = source.toUTF8 := String.utf8Encode_toList
  rw [← h]
  simp [List.utf8Encode, encode]

/-- Whatever the text and the limits: reading its bytes gives the format, or the error, that reading
its characters gives.  The names are the same under any repair of ill-formed bytes, as the bytes of
a name are those of its characters, and so are the errors, whatever would be quoted from inside a
character. -/
theorem ofText_eq_characterwise (limits : Limits) (source : String) :
    ofText .lossy limits source = Format.ofText limits source ∧
      (∀ repair : Repair, ofText repair limits source = Format.ofText limits source) ∧
      ∀ text : List Char, readName? (encode text) =
        (FieldName.read? text).map fun (name, rest) => (encode name, encode rest) := by
  have hrepair (repair : Repair) : ofText repair limits source = Format.ofText limits source := by
    have hnil : Inside [] := fun b hb => absurd hb List.not_mem_nil
    have hsame : parseFrom repair source.toList limits.depth.toNat none 0 (encode source.toList) =
        (Layout.parseFrom limits.depth.toNat none 0 source.toList).map
          fun (layout, left) => (layout, encode left) :=
      same_append hnil (List.suffix_refl source.toList)
    rw [ofText, toUTF8_eq_encode, hsame, Format.ofText, Layout.parse]
    cases Layout.parseFrom limits.depth.toNat none 0 source.toList <;> rfl
  exact ⟨hrepair .lossy, hrepair, readName?_encode⟩

end BinaryLayout.Bytewise
