import BinaryLayout.Proofs.Layout.Writing

/-!
# Characters that mean nothing

Between two fields a format may hold separators, digits and any character outside of ASCII.  Such a
character is passed over wherever a code or a name is expected, and the digits behind it count for
nothing.  So a text that begins with one is read like the text behind it (`parseFrom_cons`).
-/

namespace BinaryLayout

/-- A character that is no code, begins no name and hides nothing. -/
structure IsIdle (c : Char) : Prop where
  blank : Code.ofChar c = .blank
  start : FieldName.isStart c = false
  plain : c ≠ '\\'

/-! ## Which characters they are -/

theorem isIdle_space : IsIdle ' ' := ⟨by decide, by decide, by decide⟩

/-- Digits mean something only behind a code. -/
theorem isIdle_of_isDigit {c : Char} (h : c.isDigit = true) : IsIdle c where
  blank := by
    unfold Code.ofChar
    split <;> first | rfl | exact absurd h (by decide)
  start := by
    refine Bool.eq_false_iff.2 fun hstart => ?_
    rw [FieldName.isDigit_of_isStart hstart] at h
    cases h
  plain := by
    rintro rfl
    exact absurd h (by decide)

/-- The letters are ASCII. -/
theorem lt_of_isAlpha {c : Char} (h : c.isAlpha = true) : c.toNat < 128 := by
  have hletter : c.isUpper = true ∨ c.isLower = true := Bool.or_eq_true_iff.1 h
  rcases hletter with hupper | hlower
  · have hhigh : c.toNat ≤ 'Z'.toNat := UInt32.le_iff_toNat_le.1 (of_decide_eq_true hupper).2
    exact Nat.lt_of_le_of_lt hhigh (by decide)
  · have hlast : decide (c.val ≤ 'z'.val) = true := (Bool.and_eq_true_iff.1 hlower).2
    have hhigh : c.toNat ≤ 'z'.toNat := UInt32.le_iff_toNat_le.1 (of_decide_eq_true hlast)
    exact Nat.lt_of_le_of_lt hhigh (by decide)

/-- Names begin in ASCII. -/
theorem lt_of_isStart {c : Char} (h : FieldName.isStart c = true) : c.toNat < 128 := by
  have hcases : (c.isAlpha = true ∨ c = '_') ∨ c = '$' := by simpa [FieldName.isStart] using h
  rcases hcases with (halpha | rfl) | rfl
  · exact lt_of_isAlpha halpha
  · decide
  · decide

/-- Formats are written in ASCII; only names hold other characters. -/
theorem isIdle_of_le {c : Char} (h : 128 ≤ c.toNat) : IsIdle c where
  blank := by
    unfold Code.ofChar
    split <;> first | rfl | exact absurd h (by decide)
  start := by
    refine Bool.eq_false_iff.2 fun hstart => ?_
    have hlow := lt_of_isStart hstart
    omega
  plain := by
    rintro rfl
    exact absurd h (by decide)

/-! ## What becomes of them -/

/-- Only a code has a longer form. -/
theorem Code.ofPair?_of_blank {c : Char} (h : ofChar c = .blank) (d : Char) :
    ofPair? c d = none := by
  have hordered (order : ByteOrder) : ordered? c order = none := by
    unfold ordered?
    split <;> first | rfl | cases h
  unfold ofPair?
  split
  · exact hordered .little
  · exact hordered .big
  · refine if_neg ?_
    rintro rfl
    cases h
  · rfl

namespace IsIdle

variable {c : Char} (h : IsIdle c)

include h

/-- Where a code is expected it is one that means nothing, alone. -/
theorem code? (text : List Char) : Token.code? (c :: text) = some (.blank, text) := by
  cases text with
  | nil => rw [Token.code?, h.blank]
  | cons d text => rw [Token.code?, Code.ofPair?_of_blank h.blank, h.blank]

/-- The digits behind it belong to its token. -/
theorem next? (text : List Char) :
    Token.next? false (c :: text) =
      .ok (some (⟨none, .blank, (Count.read text).1⟩, text.dropWhile Char.isDigit)) := by
  rw [Token.next?, if_neg Bool.false_ne_true, Token.read?, h.code?]
  rfl

/-- Where a name is expected it is passed over. -/
theorem seek (text : List Char) : FieldName.seek (c :: text) = FieldName.seek text := by
  have hbrace : (c == '}') = false := by
    refine beq_false_of_ne ?_
    rintro rfl
    exact absurd h.blank (by decide)
  rw [FieldName.seek.eq_def]
  simp [h.start, hbrace, h.plain]

end IsIdle

/-- A backslash hides the character behind it, whatever that is. -/
theorem FieldName.seek_escape (c : Char) (text : List Char) :
    seek ('\\' :: c :: text) = seek text := by
  rw [seek.eq_def]
  rfl

theorem FieldName.seek_dropWhile_isDigit (text : List Char) :
    seek (text.dropWhile Char.isDigit) = seek text := by
  induction text with
  | nil => rfl
  | cons c text ih =>
    by_cases hc : c.isDigit = true
    · rw [List.dropWhile_cons_of_pos hc, ih, (isIdle_of_isDigit hc).seek]
    · rw [List.dropWhile_cons_of_neg hc]

/-- Inside a record a token depends on where the search for its name stops. -/
theorem Token.next?_congr_of_seek {text other : List Char}
    (h : FieldName.seek text = FieldName.seek other) : next? true text = next? true other := by
  have hname : FieldName.next? text = FieldName.next? other := by
    rw [FieldName.next?, FieldName.next?, h]
  rw [next?, next?, if_pos rfl, if_pos rfl, hname]

namespace Layout

variable {limit : Nat} {within : Option GroupKind} {depth : Nat}

/-- Two texts with the same first token are read alike. -/
theorem parseFrom_congr {text other : List Char}
    (h : Token.next? (within == some .record) text = Token.next? (within == some .record) other) :
    parseFrom limit within depth text = parseFrom limit within depth other := by
  rw [parseFrom_eq, h, ← parseFrom_eq]

/-- Outside of a record a character that means nothing leaves what is behind its digits. -/
theorem parseFrom_cons_of_ne_record (hwithin : within ≠ some .record) {c : Char} (hc : IsIdle c)
    (text : List Char) :
    parseFrom limit within depth (c :: text) =
      parseFrom limit within depth (text.dropWhile Char.isDigit) := by
  have hcode : (within == some .record) = false := beq_false_of_ne hwithin
  rw [parseFrom_eq, hcode, hc.next?]

/-- Digits in front of a text mean nothing. -/
theorem parseFrom_dropWhile_isDigit (text : List Char) :
    parseFrom limit within depth (text.dropWhile Char.isDigit) =
      parseFrom limit within depth text := by
  by_cases hrecord : within = some .record
  · subst hrecord
    exact parseFrom_congr (Token.next?_congr_of_seek (FieldName.seek_dropWhile_isDigit text))
  · cases text with
    | nil => rfl
    | cons c text =>
      by_cases hc : c.isDigit = true
      · rw [List.dropWhile_cons_of_pos hc,
          parseFrom_cons_of_ne_record hrecord (isIdle_of_isDigit hc)]
      · rw [List.dropWhile_cons_of_neg hc]

/-- A character that means nothing makes no difference in front of a text. -/
theorem parseFrom_cons {c : Char} (hc : IsIdle c) (text : List Char) :
    parseFrom limit within depth (c :: text) = parseFrom limit within depth text := by
  by_cases hrecord : within = some .record
  · subst hrecord
    exact parseFrom_congr (Token.next?_congr_of_seek (hc.seek text))
  · rw [parseFrom_cons_of_ne_record hrecord hc, parseFrom_dropWhile_isDigit]

end Layout

end BinaryLayout
