import BinaryLayout.Proofs.Encoding.Utf8
import BinaryLayout.Proofs.Layout.Closings
import BinaryLayout.Proofs.Layout.Limits

/-!
# Counting brackets

Without records there are no names, and a bracket in a text is always a token of its own.  So
whether the text is a format can be told from its brackets in one pass, with the number of open
groups.

There are four groups.

* The pass.  `openBehind` counts the open brackets, and `HasZeroRepeat` finds an array that is
  repeated no times.
* What is passed over.  `Advances` relates two places of the pass, and `IsPlain.advances` says that
  most characters change nothing.
* Tokens.  There is a lemma for each thing that a token can mean.
* Layouts.  `Reads.advances` is the induction over the rules, `isDue_of_parseFrom` the one for
  refused texts, and `Format.ofText_of_brackets` puts them together.
-/

namespace BinaryLayout

/-! ## The pass -/

/-- The number of open brackets behind a character, with `n` of them in front.  Where none is open a
closing bracket ends nothing. -/
def bracketStep (n : Nat) (c : Char) : Nat :=
  if c = '[' then n + 1 else if c = ']' ∨ c = '}' then n - 1 else n

/-- The number of open brackets behind a text, with `n` of them in front. -/
def openBehind (n : Nat) (text : List Char) : Nat := text.foldl bracketStep n

/-- Digits come first, and all of them are zeros. -/
def BeginsWithZeros (text : List Char) : Prop :=
  text.takeWhile Char.isDigit ≠ [] ∧ ∀ c ∈ text.takeWhile Char.isDigit, c = '0'

/-- Right behind some opening bracket there is a count, which is zero. -/
def HasZeroRepeat (text : List Char) : Prop :=
  ∃ behind, '[' :: behind <:+ text ∧ BeginsWithZeros behind

theorem not_hasZeroRepeat_nil : ¬HasZeroRepeat [] := by
  rintro ⟨behind, hsuffix, _⟩
  exact absurd (List.suffix_nil.1 hsuffix) (List.cons_ne_nil _ _)

theorem hasZeroRepeat_cons {c : Char} {text : List Char} :
    HasZeroRepeat (c :: text) ↔ (c = '[' ∧ BeginsWithZeros text) ∨ HasZeroRepeat text := by
  constructor
  · rintro ⟨behind, hsuffix, hzeros⟩
    rcases List.suffix_cons_iff.1 hsuffix with heq | hsuffix
    · obtain ⟨rfl, rfl⟩ := List.cons.inj heq
      exact .inl ⟨rfl, hzeros⟩
    · exact .inr ⟨behind, hsuffix, hzeros⟩
  · rintro (⟨rfl, hzeros⟩ | ⟨behind, hsuffix, hzeros⟩)
    · exact ⟨text, List.suffix_rfl, hzeros⟩
    · exact ⟨behind, hsuffix.trans (List.suffix_cons _ _), hzeros⟩

instance (text : List Char) : Decidable (BeginsWithZeros text) :=
  decidable_of_iff ((text.takeWhile Char.isDigit).isEmpty = false ∧
      (text.takeWhile Char.isDigit).all (· == '0') = true)
    (by simp [BeginsWithZeros])

instance decidableHasZeroRepeat : (text : List Char) → Decidable (HasZeroRepeat text)
  | [] => isFalse not_hasZeroRepeat_nil
  | _ :: rest =>
    have := decidableHasZeroRepeat rest
    decidable_of_iff _ hasZeroRepeat_cons.symm

/-- The count that is read from a text is zero exactly if the text begins with zeros. -/
theorem Count.getD_read_eq_zero_iff (text : List Char) :
    (read text).1.getD 1 = 0 ↔ BeginsWithZeros text := by
  have hdigits : ∀ c ∈ text.takeWhile Char.isDigit, c.isDigit = true := fun c hc =>
    List.all_eq_true.1 List.all_takeWhile c hc
  unfold read BeginsWithZeros
  by_cases hnone : text.takeWhile Char.isDigit = []
  · simp [hnone]
  · simp [hnone, Count.ofDigits_eq_zero_iff hdigits]

/-! ## What is passed over -/

/-- The pass comes from one place of a text to another.  With `n` brackets open at the first it has
`m` open at the second, and it has passed so many opening brackets, none of them with a zero behind
it. -/
structure Advances (brackets n : Nat) (text : List Char) (m : Nat) (rest : List Char) : Prop where
  count : text.count '[' = brackets + rest.count '['
  behind : openBehind n text = openBehind m rest
  zeros : HasZeroRepeat text ↔ HasZeroRepeat rest

/-- Neither an opening square bracket nor a closing bracket. -/
def IsPlain (c : Char) : Prop := c ≠ '[' ∧ c ≠ ']' ∧ c ≠ '}'

/-- What holds of no bracket holds of plain characters only. -/
theorem isPlain_of (holds : Char → Prop) (hnone : ¬holds '[' ∧ ¬holds ']' ∧ ¬holds '}') {c : Char}
    (hc : holds c) : IsPlain c :=
  ⟨fun he => hnone.1 (he ▸ hc), fun he => hnone.2.1 (he ▸ hc), fun he => hnone.2.2 (he ▸ hc)⟩

section

variable {brackets more n m l : Nat} {text rest last : List Char} {c : Char}

theorem Advances.refl (n : Nat) (text : List Char) : Advances 0 n text n text :=
  ⟨(Nat.zero_add _).symm, rfl, .rfl⟩

theorem Advances.trans (h : Advances brackets n text m rest) (hmore : Advances more m rest l last) :
    Advances (brackets + more) n text l last :=
  ⟨by rw [h.count, hmore.count, Nat.add_assoc], h.behind.trans hmore.behind,
    h.zeros.trans hmore.zeros⟩

/-- In front of a part without opening brackets. -/
theorem Advances.front (h : Advances 0 n text m rest) (hmore : Advances more m rest l last) :
    Advances more n text l last := by
  have hboth := h.trans hmore
  rwa [Nat.zero_add] at hboth

theorem advances_of_ne (hc : c ≠ '[') (n : Nat) (text : List Char) :
    Advances 0 n (c :: text) (bracketStep n c) text where
  count := by rw [List.count_cons_of_ne hc, Nat.zero_add]
  behind := rfl
  zeros := by
    rw [hasZeroRepeat_cons]
    exact or_iff_right fun h => hc h.1

theorem IsPlain.advances (hc : IsPlain c) (n : Nat) (text : List Char) :
    Advances 0 n (c :: text) n text := by
  obtain ⟨hopening, hsquare, hbrace⟩ := hc
  have hclosing : ¬(c = ']' ∨ c = '}') := not_or.2 ⟨hsquare, hbrace⟩
  have hstep : bracketStep n c = n := by rw [bracketStep, if_neg hopening, if_neg hclosing]
  have hadvances := advances_of_ne hopening n text
  rwa [hstep] at hadvances

theorem advances_of_closing (hc : c = ']' ∨ c = '}') (n : Nat) (text : List Char) :
    Advances 0 n (c :: text) (n - 1) text := by
  rcases hc with rfl | rfl <;> exact advances_of_ne (by decide) n text

theorem advances_of_opening (hzeros : ¬BeginsWithZeros text) (n : Nat) :
    Advances 1 n ('[' :: text) (n + 1) text where
  count := by rw [List.count_cons_self, Nat.add_comm]
  behind := rfl
  zeros := by
    rw [hasZeroRepeat_cons]
    exact or_iff_right fun h => hzeros h.2

theorem advances_dropWhile_isDigit (n : Nat) (text : List Char) :
    Advances 0 n text n (text.dropWhile Char.isDigit) := by
  induction text with
  | nil => exact .refl n []
  | cons c text ih =>
    by_cases hc : c.isDigit = true
    · rw [List.dropWhile_cons_of_pos hc]
      exact ((isPlain_of (·.isDigit = true) (by decide) hc).advances n text).front ih
    · rw [List.dropWhile_cons_of_neg hc]
      exact .refl n _

end

/-! ## Tokens -/

/-- Fields and blanks are plain characters. -/
theorem Code.isPlain_of_ofChar {c : Char}
    (h : (∃ f, ofChar c = .field f) ∨ ofChar c = .blank) : IsPlain c := by
  refine isPlain_of (fun c => (∃ f, ofChar c = .field f) ∨ ofChar c = .blank) ⟨?_, ?_, ?_⟩ h <;>
    rintro (⟨_, h⟩ | h) <;> cases h

theorem Code.eq_bracket_of_ofChar {c : Char} {kind : GroupKind} (h : ofChar c = .opening kind) :
    c = kind.bracket := by
  unfold ofChar at h
  split at h <;> cases h <;> rfl

namespace Token

variable {text rest : List Char} {token : Token}

/-- Outside of records a token is a code and the digits behind it. -/
theorem code?_of_next? (h : next? false text = .ok (some (token, rest))) :
    ∃ behind, code? text = some (token.code, behind) ∧ token.count = (Count.read behind).1 ∧
      rest = behind.dropWhile Char.isDigit := by
  obtain ⟨_, behind, hcode, hcount⟩ := read?_eq_some (Except.ok.inj h)
  exact ⟨behind, hcode, congrArg Prod.fst hcount.symm, congrArg Prod.snd hcount.symm⟩

theorem advances_of_field_or_blank (h : next? false text = .ok (some (token, rest)))
    (hcode : (∃ f, token.code = .field f) ∨ token.code = .blank) (n : Nat) :
    Advances 0 n text n rest := by
  obtain ⟨behind, hread, _, rfl⟩ := code?_of_next? h
  refine Advances.front ?_ (advances_dropWhile_isDigit n behind)
  rcases code?_cases hread with ⟨c, rfl, hone⟩ | ⟨c, d, rfl, hpair⟩
  · rw [hone] at hcode
    exact (Code.isPlain_of_ofChar hcode).advances n behind
  · obtain ⟨hc, hd, _⟩ := Code.ofPair?_cases hpair
    have hfirst : IsPlain c := isPlain_of (· ∈ _) (by decide) hc
    have hsecond : IsPlain d := isPlain_of (· ∈ _) (by decide) hd
    exact (hfirst.advances n _).front (hsecond.advances n behind)

theorem advances_of_closing (h : next? false text = .ok (some (token, rest)))
    (hcode : token.code = .closing) (n : Nat) : Advances 0 n text (n - 1) rest := by
  obtain ⟨behind, hread, _, rfl⟩ := code?_of_next? h
  rw [hcode] at hread
  obtain ⟨c, rfl, hc⟩ := bracket_of_code? hread
  exact (BinaryLayout.advances_of_closing hc n behind).front (advances_dropWhile_isDigit _ behind)

/-- A token that opens a group opens an array, and its count is the one behind the bracket. -/
theorem eq_bracket_of_opening (h : next? false text = .ok (some (token, rest)))
    (hbrace : '{' ∉ text) {kind : GroupKind} (hcode : token.code = .opening kind) :
    kind = .array ∧ ∃ behind, text = '[' :: behind ∧ rest = behind.dropWhile Char.isDigit ∧
      (token.count.getD 1 = 0 ↔ BeginsWithZeros behind) := by
  obtain ⟨behind, hread, hcount, hrest⟩ := code?_of_next? h
  rw [hcode] at hread
  rcases code?_cases hread with ⟨c, rfl, hone⟩ | ⟨c, d, _, hpair⟩
  · obtain rfl := Code.eq_bracket_of_ofChar hone.symm
    cases kind with
    | array =>
      rw [hcount]
      exact ⟨rfl, behind, rfl, hrest, Count.getD_read_eq_zero_iff behind⟩
    | record => exact absurd List.mem_cons_self hbrace
  · obtain ⟨_, _, ⟨_, hfield⟩ | hfield⟩ := Code.ofPair?_cases hpair
    · cases hfield
    · cases hfield

theorem advances_of_opening (h : next? false text = .ok (some (token, rest)))
    (hbrace : '{' ∉ text) {kind : GroupKind} (hcode : token.code = .opening kind)
    (hcount : token.count.getD 1 ≠ 0) (n : Nat) : Advances 1 n text (n + 1) rest := by
  obtain ⟨_, behind, rfl, rfl, hzeros⟩ := eq_bracket_of_opening h hbrace hcode
  have hbracket := BinaryLayout.advances_of_opening (mt hzeros.2 hcount) n
  exact hbracket.trans (advances_dropWhile_isDigit (n + 1) behind)

theorem hasZeroRepeat_of_opening (h : next? false text = .ok (some (token, rest)))
    (hbrace : '{' ∉ text) {kind : GroupKind} (hcode : token.code = .opening kind)
    (hcount : token.count.getD 1 = 0) : HasZeroRepeat text := by
  obtain ⟨_, behind, rfl, rfl, hzeros⟩ := eq_bracket_of_opening h hbrace hcode
  exact hasZeroRepeat_cons.2 (.inl ⟨rfl, hzeros.1 hcount⟩)

end Token

/-! ## Layouts -/

/-- The error that the brackets of a text call for, with `n` of them open in front of it. -/
def FormatError.IsDue (n : Nat) (text : List Char) : FormatError → Prop
  | .zeroRepeat kind => kind = .array ∧ HasZeroRepeat text
  | .unterminatedGroup kind => kind = .array ∧ ¬HasZeroRepeat text ∧ 0 < openBehind n text
  | .unterminatedName _ | .tooDeep _ | .tooManyValues _ | .unsupported _ => False

/-- What is passed over changes nothing about the error. -/
theorem Advances.isDue {brackets n m : Nat} {text rest : List Char} {e : FormatError}
    (h : Advances brackets n text m rest) (hdue : e.IsDue m rest) : e.IsDue n text := by
  cases e with
  | zeroRepeat kind => exact ⟨hdue.1, h.zeros.2 hdue.2⟩
  | unterminatedGroup kind => exact ⟨hdue.1, mt h.zeros.1 hdue.2.1, h.behind ▸ hdue.2.2⟩
  | _ => exact hdue

namespace Layout

variable {limit : Nat} {within : Option GroupKind} {depth : Nat} {text left : List Char}

theorem eq_false_of_ne_record (hwithin : within ≠ some .record) :
    (within == some .record) = false := by
  simpa using hwithin

/-- A text that is read as a layout has a bracket for each group, and if it is the body of a group
it ends that group. -/
theorem Reads.advances {layout : Layout} (h : Reads limit within depth text layout left)
    (hwithin : within ≠ some .record) (hbrace : '{' ∉ text) {n : Nat} (hn : within.isSome ∨ n = 0) :
    Advances layout.kinds.length (n + within.toList.length) text n left := by
  induction h generalizing n with
  | @ended depth text next =>
    obtain rfl : text = [] := Token.eq_nil_of_next? next
    exact .refl n []
  | @field within _ text token rest f _ _ next code _ ih =>
    have hrest : '{' ∉ rest := fun hmem => hbrace ((Token.suffix_of_next? next).subset hmem)
    rw [eq_false_of_ne_record hwithin] at next
    exact (Token.advances_of_field_or_blank next (.inl ⟨f, code⟩) _).front (ih hwithin hrest hn)
  | @group within _ text token rest kind body behind more _ next code repeats _ inside _ ihBody
      ihTail =>
    have hrest : '{' ∉ rest := fun hmem => hbrace ((Token.suffix_of_next? next).subset hmem)
    have hbehind : '{' ∉ behind := fun hmem => hrest (inside.suffix.subset hmem)
    rw [eq_false_of_ne_record hwithin] at next
    obtain ⟨rfl, _⟩ := Token.eq_bracket_of_opening next hbrace code
    have hopening := Token.advances_of_opening next hbrace code repeats (n + within.toList.length)
    have hbody := ihBody (by decide) hrest (n := n + within.toList.length) (.inl rfl)
    have hall := (hopening.trans hbody).trans (ihTail hwithin hbehind hn)
    have hgroups : (Layout.group token.name .array (token.count.getD 1) body more).kinds.length =
        1 + body.kinds.length + more.kinds.length := by
      rw [kinds, List.length_append, List.length_cons]
      omega
    rwa [hgroups]
  | @closed kind _ text _ rest next code =>
    rw [eq_false_of_ne_record hwithin] at next
    exact Token.advances_of_closing next code (n + 1)
  | @skipped within _ text _ rest _ _ next code _ ih =>
    have hrest : '{' ∉ rest := fun hmem => hbrace ((Token.suffix_of_next? next).subset hmem)
    rw [eq_false_of_ne_record hwithin] at next
    refine Advances.front ?_ (ih hwithin hrest hn)
    rcases code with code | ⟨code, rfl⟩
    · exact Token.advances_of_field_or_blank next (.inr code) _
    · -- No group is open, and none is closed.
      obtain rfl := hn.resolve_left Bool.false_ne_true
      exact Token.advances_of_closing next code 0

/-- A text that is refused has a zero behind an opening bracket, or it ends inside a group. -/
theorem isDue_of_parseFrom {limit : Nat} {within : Option GroupKind} {depth : Nat}
    {text : List Char} {e : FormatError} (h : parseFrom limit within depth text = .error e)
    (hwithin : within ≠ some .record) (hbrace : '{' ∉ text)
    (hroom : depth + text.count '[' ≤ limit) {n : Nat} (hn : within.isSome ∨ n = 0) :
    e.IsDue (n + within.toList.length) text := by
  rw [parseFrom_eq, eq_false_of_ne_record hwithin] at h
  split at h
  · next hnext => cases hnext
  · next hnext =>
    obtain rfl : text = [] := Token.eq_nil_of_next? hnext
    cases within with
    | none => cases h
    | some kind =>
      cases h
      cases kind with
      | array => exact ⟨rfl, not_hasZeroRepeat_nil, Nat.succ_pos n⟩
      | record => exact absurd rfl hwithin
  · next token rest hnext =>
    have hshorter : rest.length < text.length := Token.length_of_next? hnext
    have hrest : '{' ∉ rest := fun hmem => hbrace ((Token.suffix_of_next? hnext).subset hmem)
    split at h
    · next f hcode =>
      have hfield := Token.advances_of_field_or_blank hnext (.inl ⟨f, hcode⟩)
        (n + within.toList.length)
      have hcount := hfield.count
      rcases bind_eq_error.1 h with hmore | ⟨_, _, h⟩
      · exact hfield.isDue (isDue_of_parseFrom hmore hwithin hrest (by omega) hn)
      · cases h
    · next kind hcode =>
      obtain ⟨rfl, _⟩ := Token.eq_bracket_of_opening hnext hbrace hcode
      split at h
      · next hzero =>
        cases h
        exact ⟨rfl, Token.hasZeroRepeat_of_opening hnext hbrace hcode hzero⟩
      · next hrepeats =>
        have hopening := Token.advances_of_opening hnext hbrace hcode hrepeats
          (n + within.toList.length)
        have hcount := hopening.count
        -- There is room for the group, because each open group has a bracket in front of the text.
        rw [if_neg (by omega)] at h
        rcases bind_eq_error.1 h with hbody | ⟨⟨body, behind⟩, hbody, h⟩
        · exact hopening.isDue (isDue_of_parseFrom hbody (by decide) hrest (by omega) (.inl rfl))
        · have hbehind : behind.length ≤ rest.length := length_le_of_parseFrom hbody
          have hinside := reads_of_parseFrom hbody
          have hafter : '{' ∉ behind := fun hmem => hrest (hinside.suffix.subset hmem)
          have hgroup := hopening.trans (hinside.advances (by decide) hrest (.inl rfl))
          have hgroups := hgroup.count
          rcases bind_eq_error.1 h with hmore | ⟨_, _, h⟩
          · exact hgroup.isDue (isDue_of_parseFrom hmore hwithin hafter (by omega) hn)
          · cases h
    · next hcode =>
      have hclosing := Token.advances_of_closing hnext hcode 0
      have hcount := hclosing.count
      split at h
      · cases h
      · next htop =>
        obtain rfl := hn.resolve_left htop
        obtain rfl : within = none := Option.not_isSome_iff_eq_none.1 htop
        exact hclosing.isDue (isDue_of_parseFrom h hwithin hrest (by omega) hn)
    · next hcode =>
      have hblank := Token.advances_of_field_or_blank hnext (.inr hcode) (n + within.toList.length)
      have hcount := hblank.count
      exact hblank.isDue (isDue_of_parseFrom h hwithin hrest (by omega) hn)
termination_by text.length

end Layout

namespace Format

/-- A text without records is refused for what its brackets call for. -/
theorem isDue_of_ofText {source : String} {e : FormatError}
    (h : ofText .greatest source = .error e) (hbrace : '{' ∉ source.toList)
    (hsize : source.utf8ByteSize < Count.greatest) : e.IsDue 0 source.toList := by
  have hparse := (ofText_eq_error_iff (refuses_of_ofText_greatest h)).1 h
  have hgreatest : Limits.greatest.depth.toNat = Count.greatest := by decide
  have hcount : source.toList.count '[' ≤ source.toList.length := List.count_le_length
  have hlength := Utf8.length_le_utf8ByteSize source
  rcases bind_eq_error.1 hparse with hfrom | ⟨_, _, hdone⟩
  · exact Layout.isDue_of_parseFrom hfrom (by decide) hbrace (by omega) (.inr rfl)
  · cases hdone

/-- A format without records has a bracket for each group, and none of them stays open. -/
theorem advances_of_ofText {limits : Limits} {source : String} {format : Format}
    (h : ofText limits source = .ok format) (hbrace : '{' ∉ source.toList) :
    Advances format.layout.kinds.length 0 source.toList 0 [] := by
  obtain ⟨hparse, _, _⟩ := ofText_eq_ok_iff.1 h
  obtain ⟨left, hreads⟩ := Layout.reads_of_parse hparse
  obtain rfl : left = [] := hreads.left_eq_nil rfl
  exact hreads.advances (by decide) hbrace (.inr rfl)

/-- A text without records is refused for an array that is repeated no times if it has one, or else
if its brackets leave an array open.  Otherwise it is a format with a group for each opening
bracket. -/
theorem ofText_of_brackets {source : String} (hbrace : '{' ∉ source.toList)
    (hsize : source.utf8ByteSize < Count.greatest) :
    (HasZeroRepeat source.toList →
        ofText .greatest source = .error (.zeroRepeat .array)) ∧
      (¬HasZeroRepeat source.toList → 0 < openBehind 0 source.toList →
        ofText .greatest source = .error (.unterminatedGroup .array)) ∧
      (¬HasZeroRepeat source.toList → openBehind 0 source.toList = 0 →
        ∃ layout, ofText .greatest source = .ok ⟨source, layout⟩ ∧
          layout.kinds.length = source.toList.count '[') := by
  cases h : ofText .greatest source with
  | error e =>
    have hdue := isDue_of_ofText h hbrace hsize
    cases e with
    | zeroRepeat kind =>
      obtain ⟨rfl, hzeros⟩ := hdue
      exact ⟨fun _ => rfl, absurd hzeros, absurd hzeros⟩
    | unterminatedGroup kind =>
      obtain ⟨rfl, hnot, hopen⟩ := hdue
      exact ⟨fun hzeros => absurd hzeros hnot, fun _ _ => rfl, fun _ hclosed => by omega⟩
    | _ => exact hdue.elim
  | ok format =>
    obtain ⟨hcount, hbehind, hzeros⟩ := advances_of_ofText h hbrace
    have hnot : ¬HasZeroRepeat source.toList := mt hzeros.1 not_hasZeroRepeat_nil
    have hclosed : openBehind 0 source.toList = 0 := hbehind
    obtain ⟨_, _, rfl⟩ := ofText_eq_ok_iff.1 h
    exact ⟨fun hzeros => absurd hzeros hnot, fun _ hopen => by omega,
      fun _ _ => ⟨format.layout, rfl, hcount.symm⟩⟩

/-- An array that is repeated no times and not closed either; an array that is left open behind
brackets that close nothing; and two arrays, with zeros in other places. -/
theorem ofText_of_brackets_and_zeros :
    ('{' ∉ "C0[02[00]".toList ∧ "C0[02[00]".utf8ByteSize < Count.greatest ∧
      HasZeroRepeat "C0[02[00]".toList ∧
      ofText .greatest "C0[02[00]" = .error (.zeroRepeat .array)) ∧
    ('{' ∉ "]\x7d[[C]0x".toList ∧ "]\x7d[[C]0x".utf8ByteSize < Count.greatest ∧
      ¬HasZeroRepeat "]\x7d[[C]0x".toList ∧ 0 < openBehind 0 "]\x7d[[C]0x".toList ∧
      ofText .greatest "]\x7d[[C]0x" = .error (.unterminatedGroup .array)) ∧
    ('{' ∉ "]0[10[s<0\x7d0 ]00".toList ∧ "]0[10[s<0\x7d0 ]00".utf8ByteSize < Count.greatest ∧
      ¬HasZeroRepeat "]0[10[s<0\x7d0 ]00".toList ∧ openBehind 0 "]0[10[s<0\x7d0 ]00".toList = 0 ∧
      ∃ layout, ofText .greatest "]0[10[s<0\x7d0 ]00" = .ok ⟨"]0[10[s<0\x7d0 ]00", layout⟩ ∧
        layout.kinds.length = 2) := by
  obtain ⟨hzero, _⟩ := @ofText_of_brackets "C0[02[00]" (by decide) (by decide)
  obtain ⟨_, hopen, _⟩ := @ofText_of_brackets "]\x7d[[C]0x" (by decide) (by decide)
  obtain ⟨_, _, hread⟩ := @ofText_of_brackets "]0[10[s<0\x7d0 ]00" (by decide) (by decide)
  exact ⟨⟨by decide, by decide, by decide, hzero (by decide)⟩,
    ⟨by decide, by decide, by decide, by decide, hopen (by decide) (by decide)⟩,
    ⟨by decide, by decide, by decide, by decide, hread (by decide) (by decide)⟩⟩

end Format

end BinaryLayout
